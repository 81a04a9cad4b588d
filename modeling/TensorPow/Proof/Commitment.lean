import TensorPow.Spec.Commitment
import TensorPow.Sparse.Tree
import TensorPow.Proof.UtxoSet
import TensorPow.Proof.Decode

/-!
# The UTXO commitment is canonical

* `plainRoot`: the depth-256 sparse Merkle recursion over the members of a set.
* `subtreeRoot_keeps`: over the sorted keys and a cache of correct hashes, `_subtree_root`
  computes the plain recursion and leaves a cache of correct hashes.
* `commitment_canonical`: this is so after every sequence of calls, so no cached subtree is
  ever stale; and roots determine sets where hashing is free of collisions.
-/

namespace TensorPow

open Wire Sorted Exn

variable {C : Crypto}

/-! ## The plain recursion -/

variable (C) in
/-- The byte string hashed for a leaf, an inner node or an empty subtree. -/
def treeInput : Sparse.Input UTXO Hash → Bytes
  | .leaf _ u => domainMerkleLeaf :: ((u.outpoint.key C).bytes ++ (u.valueHash C).bytes)
  | .node depth left right => domainMerkleNode :: (le 2 depth ++ left.bytes ++ right.bytes)
  | .empty depth => domainMerkleEmpty :: le 2 depth

variable (C) in
/-- The hash of a leaf, an inner node or an empty subtree. -/
def treeDigest (x : Sparse.Input UTXO Hash) : Hash := C.hashBytes (treeInput C x)

namespace UTXOSet

/-- The members by their keys. -/
def treeItems (s : UTXOSet C) : List (ℕ × UTXO) := s.entries.map fun u => (keyIntOf (u.outpoint.key C), u)

/-- The plain recursion on a subtree. -/
def plainSubtree (s : UTXOSet C) (levels pre : ℕ) : Hash :=
  Sparse.root (treeDigest C) merkleDepthBits s.treeItems levels pre

/-- The plain sparse Merkle recursion of depth 256. -/
def plainRoot (s : UTXOSet C) : Hash := s.plainSubtree merkleDepthBits 0

end UTXOSet

/-! ## Ranges of keys -/

theorem keyIntOf_inj {a b : Hash} (h : keyIntOf a = keyIntOf b) : a = b :=
  FixedBytes.bytes_inj.1 (ofBe_inj (by simp) h)

theorem keyIntOf_lt (a : Hash) : keyIntOf a < 2 ^ merkleDepthBits := by
  have := ofBe_lt a.bytes
  rw [FixedBytes.length_bytes] at this
  unfold keyIntOf merkleDepthBits hashLenBytes
  calc ofBe a.bytes < 256 ^ 32 := this
    _ = 2 ^ (32 * 8) := by norm_num

section Bisect

variable {l : List ℕ} {x y : ℕ}

theorem bisectLeft_zero (l : List ℕ) (x : ℕ) : bisectLeft l x 0 = (l.takeWhile (· < x)).length := by
  simp [bisectLeft]

theorem drop_bisectLeft (l : List ℕ) (x : ℕ) : l.drop (bisectLeft l x 0) = l.dropWhile (· < x) := by
  rw [bisectLeft_zero]
  nth_rewrite 2 [← List.takeWhile_append_dropWhile (p := (· < x)) (l := l)]
  rw [List.drop_left]

/-- The keys below `y` of an ascending list come first. -/
theorem takeWhile_ascending (hl : l.Pairwise (· < ·)) : l.takeWhile (· < y) = l.filter (· < y) := by
  induction l with
  | nil => rfl
  | cons k l ih =>
    rw [List.pairwise_cons] at hl
    by_cases hk : k < y
    · rw [List.takeWhile_cons_of_pos (by simpa), List.filter_cons_of_pos (by simpa), ih hl.2]
    · rw [List.takeWhile_cons_of_neg (by simpa using hk), List.filter_cons_of_neg (by simpa using hk), eq_comm, List.filter_eq_nil_iff]
      intro m hm
      have := hl.1 m hm
      simp only [decide_eq_true_eq]
      omega

/-- The keys from `x` on come last. -/
theorem dropWhile_ascending (hl : l.Pairwise (· < ·)) : l.dropWhile (· < x) = l.filter (x ≤ ·) := by
  induction l with
  | nil => rfl
  | cons k l ih =>
    rw [List.pairwise_cons] at hl
    by_cases hk : k < x
    · rw [List.dropWhile_cons_of_pos (by simpa), List.filter_cons_of_neg (by simpa), ih hl.2]
    · rw [List.dropWhile_cons_of_neg (by simpa using hk), eq_comm, List.filter_eq_self]
      intro m hm
      simp only [decide_eq_true_eq]
      rcases List.mem_cons.1 hm with rfl | hm
      · omega
      · have := hl.1 m hm
        omega

/-- The keys in a range of an ascending list. -/
def keysIn (l : List ℕ) (x y : ℕ) : List ℕ := (l.dropWhile (· < x)).takeWhile (· < y)

theorem bisectLeft_from (l : List ℕ) (x y : ℕ) :
    bisectLeft l y (bisectLeft l x 0) = bisectLeft l x 0 + (keysIn l x y).length := by
  rw [bisectLeft, drop_bisectLeft, keysIn]

theorem mem_keysIn (hl : l.Pairwise (· < ·)) {k : ℕ} : k ∈ keysIn l x y ↔ k ∈ l ∧ x ≤ k ∧ k < y := by
  unfold keysIn
  rw [dropWhile_ascending hl, takeWhile_ascending (hl.filter _), List.mem_filter, List.mem_filter]
  simp only [decide_eq_true_eq]
  tauto

theorem nodup_keysIn (hl : l.Pairwise (· < ·)) : (keysIn l x y).Nodup := by
  unfold keysIn
  rw [dropWhile_ascending hl, takeWhile_ascending (hl.filter _)]
  exact (hl.imp fun h => (ne_of_lt h : _ ≠ _)).filter _ |>.filter _

/-- A key of the list is alone in its own range, which begins at its position. -/
theorem keysIn_self (hl : l.Pairwise (· < ·)) {k : ℕ} (hk : k ∈ l) :
    (keysIn l k (k + 1)).length = 1 ∧ l[bisectLeft l k 0]? = some k := by
  have hkeys : keysIn l k (k + 1) = [k] := by
    refine List.perm_singleton.1 ((List.perm_ext_iff_of_nodup (nodup_keysIn hl) (List.nodup_singleton k)).2 ?_)
    intro m
    rw [mem_keysIn hl, List.mem_singleton]
    constructor
    · rintro ⟨-, hle, hlt⟩
      omega
    · rintro rfl
      exact ⟨hk, le_rfl, Nat.lt_succ_self _⟩
  refine ⟨by rw [hkeys]; rfl, ?_⟩
  have hsplit := List.takeWhile_append_dropWhile (p := (· < k + 1)) (l := l.dropWhile (· < k))
  change keysIn l k (k + 1) ++ _ = _ at hsplit
  rw [hkeys] at hsplit
  have hhead := congrArg (·[0]?) hsplit
  simp only [List.singleton_append, List.getElem?_cons_zero] at hhead
  rw [← drop_bisectLeft, List.getElem?_drop, Nat.add_zero] at hhead
  exact hhead.symm

end Bisect

theorem rangeForPrefix_ok (keyInts : List ℕ) {levels pre : ℕ} (hle : levels ≤ merkleDepthBits)
    (hpre : pre < 2 ^ (merkleDepthBits - levels)) :
    rangeForPrefix keyInts (merkleDepthBits - levels) pre =
      .ok (bisectLeft keyInts (pre * 2 ^ levels) 0,
        bisectLeft keyInts (pre * 2 ^ levels) 0 + (keysIn keyInts (pre * 2 ^ levels) ((pre + 1) * 2 ^ levels)).length) := by
  unfold rangeForPrefix
  rw [Exn.ensure_of _ (Nat.sub_le _ _), Exn.ok_bind, Exn.ensure_of _ hpre, Exn.ok_bind]
  dsimp only
  rw [show merkleDepthBits - (merkleDepthBits - levels) = levels by omega, bisectLeft_from]
  rfl

theorem div_pow_eq_iff {k levels pre : ℕ} : k / 2 ^ levels = pre ↔ pre * 2 ^ levels ≤ k ∧ k < (pre + 1) * 2 ^ levels := by
  have hpos : 0 < 2 ^ levels := by positivity
  rw [← Nat.le_div_iff_mul_le hpos, ← Nat.div_lt_iff_lt_mul hpos]
  omega

/-! ## The sorted items -/

namespace CachedSet

open UTXOSet

variable (s : UTXOSet C)

/-- The sorted keys. -/
def sortedKeys : List ℕ := (sortedItems s).map MerkleItem.keyInt

theorem mem_sortedItems {s : UTXOSet C} {item : MerkleItem} : item ∈ sortedItems s ↔
    ∃ u ∈ s.entries, item = ⟨keyIntOf (u.outpoint.key C), u.outpoint.key C, u.valueHash C⟩ := by
  unfold sortedItems
  rw [mem_sortBy, List.mem_map]
  exact ⟨fun ⟨u, hu, h⟩ => ⟨u, hu, h.symm⟩, fun ⟨u, hu, h⟩ => ⟨u, hu, h.symm⟩⟩

theorem mem_sortedKeys {s : UTXOSet C} {k : ℕ} : k ∈ sortedKeys s ↔ ∃ u ∈ s.entries, keyIntOf (u.outpoint.key C) = k := by
  unfold sortedKeys
  simp only [List.mem_map, mem_sortedItems]
  constructor
  · rintro ⟨item, ⟨u, hu, rfl⟩, rfl⟩
    exact ⟨u, hu, rfl⟩
  · rintro ⟨u, hu, rfl⟩
    exact ⟨_, ⟨u, hu, rfl⟩, rfl⟩

/-- Members with one key are equal. -/
theorem keyInt_inj {s : UTXOSet C} {u v : UTXO} (hu : u ∈ s.entries) (hv : v ∈ s.entries)
    (h : keyIntOf (u.outpoint.key C) = keyIntOf (v.outpoint.key C)) : u = v := by
  have hu := mem_entries.1 hu
  have hv := mem_entries.1 hv
  have ho := key_injOn hu hv (keyIntOf_inj h)
  rw [ho, hv] at hu
  exact (Option.some.inj hu).symm

/-- The keys are strictly ascending. -/
theorem ascending_sortedKeys : (sortedKeys s).Pairwise (· < ·) := by
  have hle : (sortedKeys s).Pairwise (· ≤ ·) := by
    unfold sortedKeys sortedItems
    rw [List.pairwise_map]
    refine (pairwise_sortBy _ _).imp fun {a b} h => ?_
    exact (Prod.Lex.toLex_le_toLex.1 h).elim le_of_lt fun h => h.1.le
  have hnodup : (sortedKeys s).Nodup := by
    unfold sortedKeys sortedItems
    rw [((perm_sortBy _ _).map MerkleItem.keyInt).nodup_iff, List.map_map]
    have hmap := (s.nodup_entries.of_map).map_on (f := MerkleItem.keyInt ∘ fun u : UTXO =>
      (⟨keyIntOf (u.outpoint.key C), u.outpoint.key C, u.valueHash C⟩ : MerkleItem)) fun u hu v hv h => keyInt_inj hu hv h
    exact hmap
  exact (hle.and hnodup).imp fun h => lt_of_le_of_ne h.1 h.2

theorem occupied_iff {levels pre : ℕ} : Sparse.Occupied s.treeItems levels pre ↔
    keysIn (sortedKeys s) (pre * 2 ^ levels) ((pre + 1) * 2 ^ levels) ≠ [] := by
  rw [Ne, List.eq_nil_iff_forall_not_mem]
  simp only [mem_keysIn (ascending_sortedKeys s), ← div_pow_eq_iff, mem_sortedKeys, not_forall, not_not]
  unfold Sparse.Occupied treeItems
  simp only [List.mem_map]
  constructor
  · rintro ⟨x, ⟨u, hu, rfl⟩, hx⟩
    exact ⟨_, ⟨u, hu, rfl⟩, hx⟩
  · rintro ⟨k, ⟨u, hu, rfl⟩, hk⟩
    exact ⟨_, ⟨u, hu, rfl⟩, hk⟩

theorem get_treeItems {s : UTXOSet C} {k : ℕ} {u : UTXO} :
    Sparse.get s.treeItems k = some u ↔ u ∈ s.entries ∧ keyIntOf (u.outpoint.key C) = k := by
  constructor
  · intro h
    obtain ⟨x, hx, rfl⟩ := Option.map_eq_some_iff.1 h
    obtain ⟨v, hv, rfl⟩ := List.mem_map.1 (List.mem_of_find?_eq_some hx)
    exact ⟨hv, by simpa using List.find?_some hx⟩
  · rintro ⟨hu, rfl⟩
    cases hget : Sparse.get s.treeItems (keyIntOf (u.outpoint.key C)) with
    | none => exact absurd rfl (Sparse.get_eq_none.1 hget _ (List.mem_map.2 ⟨u, hu, rfl⟩))
    | some v =>
      obtain ⟨x, hx, rfl⟩ := Option.map_eq_some_iff.1 hget
      obtain ⟨v, hv, rfl⟩ := List.mem_map.1 (List.mem_of_find?_eq_some hx)
      rw [keyInt_inj hv hu (by simpa using List.find?_some hx)]

/-! ## Subtrees -/

/-- Every cached hash is that of the plain recursion. -/
def CacheOk (cache : SubtreeCache) : Prop := ∀ levels ≤ merkleDepthBits, ∀ (pre : ℕ) (node : Hash),
  cache[toLex (merkleDepthBits - levels, pre)]? = some node → node = s.plainSubtree levels pre

theorem plainSubtree_empty {s : UTXOSet C} {levels pre : ℕ} (h : ¬Sparse.Occupied s.treeItems levels pre) :
    s.plainSubtree levels pre = emptyHash C (merkleDepthBits - levels) := by
  unfold plainSubtree Sparse.root
  rw [Sparse.top_not_occupied _ _ _ h]
  rfl

theorem CacheOk.insert {s : UTXOSet C} {cache : SubtreeCache} (h : CacheOk s cache) {levels pre : ℕ}
    (hle : levels ≤ merkleDepthBits) :
    CacheOk s (cache.insert (toLex (merkleDepthBits - levels, pre)) (s.plainSubtree levels pre)) := by
  intro levels' hle' pre' node hnode
  rw [Table.get_insert] at hnode
  split at hnode
  · rename_i heq
    cases hnode
    obtain ⟨hdepth, rfl⟩ := Prod.mk.inj (toLex.injective heq)
    rw [show levels' = levels by omega]
  · exact h levels' hle' pre' node hnode

/-- Around a node: a cached hash is correct, and so is a hash that is built. -/
theorem subtreeNode_keeps {s : UTXOSet C} {levels pre : ℕ} (hle : levels ≤ merkleDepthBits)
    (hpre : pre < 2 ^ (merkleDepthBits - levels)) {build : ℕ × ℕ → Stateful PyError SubtreeCache Hash}
    (hbuild : Sparse.Occupied s.treeItems levels pre → ∀ range,
      rangeForPrefix (sortedKeys s) (merkleDepthBits - levels) pre = .ok range →
      Keeps (CacheOk s) (build range) (s.plainSubtree levels pre)) :
    Keeps (CacheOk s) (subtreeNode C (sortedKeys s) (merkleDepthBits - levels) pre build) (s.plainSubtree levels pre) := by
  have hrange := rangeForPrefix_ok (sortedKeys s) hle hpre
  refine Keeps.get_bind fun cache hcache => ?_
  -- a node that is cached is the right one, and one that is built is cached
  cases hget : cache[toLex (merkleDepthBits - levels, pre)]? with
  | some node => exact ⟨cache, by rw [hcache levels hle pre node hget]; rfl, hcache⟩
  | none =>
    dsimp only
    rw [hrange]
    by_cases hocc : Sparse.Occupied s.treeItems levels pre
    · have hne : (keysIn (sortedKeys s) (pre * 2 ^ levels) ((pre + 1) * 2 ^ levels)).length ≠ 0 := by
        rw [Ne, List.length_eq_zero_iff]
        exact (occupied_iff s).1 hocc
      obtain ⟨cache', hnode, hcache'⟩ := hbuild hocc _ hrange cache hcache
      refine ⟨cache'.insert (toLex (merkleDepthBits - levels, pre)) (s.plainSubtree levels pre), ?_, hcache'.insert hle⟩
      rw [Stateful.runOn_bind, Stateful.runOn_lift]
      dsimp only
      rw [if_neg (by omega), Stateful.runOn_bind, hnode]
      rfl
    · have heq : keysIn (sortedKeys s) (pre * 2 ^ levels) ((pre + 1) * 2 ^ levels) = [] := by
        by_contra hne
        exact hocc ((occupied_iff s).2 hne)
      refine ⟨cache, ?_, hcache⟩
      rw [Stateful.runOn_bind, Stateful.runOn_lift]
      dsimp only
      rw [heq, if_pos (by simp), plainSubtree_empty hocc]
      rfl

/-- The leaf of an occupied range of one key is that of the member with the key. -/
theorem subtreeLeaf_ok {s : UTXOSet C} {pre : ℕ} (hocc : Sparse.Occupied s.treeItems 0 pre) {range : ℕ × ℕ}
    (hrange : range = (bisectLeft (sortedKeys s) pre 0,
      bisectLeft (sortedKeys s) pre 0 + (keysIn (sortedKeys s) pre (pre + 1)).length)) :
    subtreeLeaf C (sortedItems s) range = .ok (s.plainSubtree 0 pre) := by
  obtain ⟨x, hx, hpre⟩ := hocc
  obtain ⟨u, hu, rfl⟩ := List.mem_map.1 hx
  rw [pow_zero, Nat.div_one] at hpre
  subst hpre
  obtain ⟨hlen, hpos⟩ := keysIn_self (ascending_sortedKeys s) (mem_sortedKeys.2 ⟨u, hu, rfl⟩)
  unfold sortedKeys at hpos
  rw [List.getElem?_map, Option.map_eq_some_iff] at hpos
  obtain ⟨item, hitem, hkey⟩ := hpos
  obtain ⟨v, hv, rfl⟩ := mem_sortedItems.1 (List.mem_of_getElem? hitem)
  cases keyInt_inj hv hu hkey
  have hplain : s.plainSubtree 0 (keyIntOf (u.outpoint.key C)) = leafHash C (u.outpoint.key C) (u.valueHash C) := by
    unfold plainSubtree Sparse.root
    rw [Sparse.top, get_treeItems.2 ⟨hu, rfl⟩]
    rfl
  rw [hrange, subtreeLeaf, Exn.ensure_of _ (by dsimp only; omega), Exn.ok_bind]
  dsimp only
  unfold sortedKeys
  rw [hitem, hplain]
  rfl

/-- **The recursion of `_subtree_root`** computes the plain one. -/
theorem subtreeRoot_keeps : ∀ {levels pre : ℕ}, levels ≤ merkleDepthBits → pre < 2 ^ (merkleDepthBits - levels) →
    Keeps (CacheOk s) (subtreeRoot C (sortedItems s) (sortedKeys s) levels pre) (s.plainSubtree levels pre)
  | 0, pre, hle, hpre => by
    refine subtreeNode_keeps hle hpre fun hocc range hrange => Keeps.lift (subtreeLeaf_ok hocc ?_)
    rw [rangeForPrefix_ok _ hle hpre, pow_zero, Nat.mul_one, Nat.mul_one] at hrange
    exact (Except.ok.inj hrange).symm
  | levels + 1, pre, hle, hpre => by
    refine subtreeNode_keeps hle hpre fun hocc range hrange => ?_
    have hhalf : 2 ^ (merkleDepthBits - levels) = 2 * 2 ^ (merkleDepthBits - (levels + 1)) := by
      rw [← pow_succ']
      congr 1
      omega
    refine (subtreeRoot_keeps (by omega) (by omega)).bind ((subtreeRoot_keeps (by omega) (by omega)).bind ?_)
    have hnode : s.plainSubtree (levels + 1) pre = nodeHash C (merkleDepthBits - (levels + 1))
        (s.plainSubtree levels (2 * pre)) (s.plainSubtree levels (2 * pre + 1)) := by
      unfold plainSubtree Sparse.root
      rw [Sparse.top, if_pos hocc]
      rfl
    rw [hnode]
    exact Keeps.pure _

/-! ## Siblings -/

/-- The siblings of the path of a key, in the plain tree. -/
def plainSiblings (key : Hash) (depth : ℕ) : List Hash :=
  (List.range depth).map (Sparse.sibling (treeDigest C) merkleDepthBits s.treeItems (keyIntOf key))

theorem keyBitAt_eq (key : Hash) {i : ℕ} (hi : i < merkleDepthBits) :
    keyBitAt key i = Sparse.keyBit merkleDepthBits (keyIntOf key) i := by
  have hbits : 8 * key.bytes.length = merkleDepthBits := by simp [merkleDepthBits, hashLenBytes]
  unfold keyBitAt Sparse.keyBit keyIntOf
  rw [← hbits, testBit_ofBe (by omega)]

theorem prefixInt_eq (key : Hash) (i : ℕ) : prefixInt (keyIntOf key) i = keyIntOf key / 2 ^ (merkleDepthBits - i) := by
  unfold prefixInt
  split
  · rename_i hzero
    rw [hzero, Nat.sub_zero, Nat.div_eq_of_lt (keyIntOf_lt key)]
  · rfl

theorem prefix_lt (key : Hash) {i : ℕ} (hi : i ≤ merkleDepthBits) :
    keyIntOf key / 2 ^ (merkleDepthBits - i) < 2 ^ i := by
  rw [Nat.div_lt_iff_lt_mul (by positivity), ← pow_add, show i + (merkleDepthBits - i) = merkleDepthBits by omega]
  exact keyIntOf_lt key

/-- **The siblings of `_proof_siblings`** are those of the plain tree. -/
theorem proofSiblings_keeps (key : Hash) {depth : ℕ} (hle : depth ≤ merkleDepthBits) :
    Keeps (CacheOk s) (proofSiblings C (sortedItems s) (sortedKeys s) key depth) (plainSiblings s key depth) := by
  refine (Keeps.lift (Exn.ensure_of _ hle)).bind (Keeps.mapM fun i hi => ?_)
  have hi : i < merkleDepthBits := by
    have := List.mem_range.1 hi
    omega
  have hlt := prefix_lt key hi.le
  have hbit : (keyBitAt key i).toNat ≤ 1 := Bool.toNat_le _
  unfold Sparse.sibling
  rw [← keyBitAt_eq key hi, ← prefixInt_eq]
  refine subtreeRoot_keeps s (by omega) ?_
  rw [prefixInt_eq, show merkleDepthBits - (merkleDepthBits - (i + 1)) = i + 1 by omega, pow_succ]
  omega

/-! ## The caches of the set -/

/-- The caches hold what they would be filled with. -/
structure Current (s : UTXOSet C) (c : CachedSet C) : Prop where
  unspent : c.unspent = s
  items : ∀ l, c.itemsCache = some l → l = sortedItems s
  keyInts : ∀ l, c.keyIntsCache = some l → l = sortedKeys s
  subtrees : CacheOk s c.subtreeCache

theorem current_fresh : Current s (fresh s) := by
  refine ⟨rfl, fun l hl => (by cases hl), fun l hl => (by cases hl), fun levels _ pre node h => ?_⟩
  change (∅ : SubtreeCache)[_]? = some node at h
  rw [Table.get_empty] at h
  cases h

theorem merkleItems_keeps : Keeps (Current s) merkleItems (sortedItems s) := by
  refine Keeps.get_bind fun c hc => ?_
  cases hitems : c.itemsCache with
  | some l =>
    rw [← hc.items l hitems]
    exact ⟨c, rfl, hc⟩
  | none =>
    refine ⟨{ c with itemsCache := some (sortedItems c.unspent) }, by rw [hc.unspent]; rfl, ?_⟩
    refine ⟨hc.unspent, fun l hl => ?_, hc.keyInts, hc.subtrees⟩
    rw [← Option.some.inj hl, hc.unspent]

theorem merkleKeyInts_keeps : Keeps (Current s) merkleKeyInts (sortedKeys s) := by
  refine Keeps.get_bind fun c hc => ?_
  cases hkeys : c.keyIntsCache with
  | some l =>
    rw [← hc.keyInts l hkeys]
    exact ⟨c, rfl, hc⟩
  | none =>
    obtain ⟨c', hrun, hc'⟩ := merkleItems_keeps s c hc
    refine ⟨{ c' with keyIntsCache := some (sortedKeys s) }, ?_, ⟨hc'.unspent, hc'.items, fun l hl => ?_, hc'.subtrees⟩⟩
    · dsimp only
      rw [Stateful.runOn_bind, hrun]
      rfl
    · exact (Option.some.inj hl).symm

theorem onSubtrees_keeps {s : UTXOSet C} {α : Type} {m : Stateful PyError SubtreeCache α} {a : α}
    (h : Keeps (CacheOk s) m a) : Keeps (Current s) (onSubtrees m) a :=
  h.zoom (fun _ hc => hc.subtrees) fun _ _ hc ht => ⟨hc.unspent, hc.items, hc.keyInts, ht⟩

/-- **The root** is that of the plain recursion. -/
theorem merkleRoot_keeps : Keeps (Current s) merkleRoot s.plainRoot := by
  refine (merkleItems_keeps s).bind ((merkleKeyInts_keeps s).bind ?_)
  exact onSubtrees_keeps (subtreeRoot_keeps s le_rfl (by simp))

/-! ## One call -/

theorem inclusionProof_preserves (o : Outpoint) : Preserves (Current s) (inclusionProof o) := by
  refine Preserves.get_bind fun c hc => Preserves.lift_bind fun u hu => ?_
  refine Preserves.keeps_bind (merkleItems_keeps s) (Preserves.keeps_bind (merkleKeyInts_keeps s) ?_)
  exact Preserves.keeps_bind (onSubtrees_keeps (proofSiblings_keeps s _ le_rfl)) (Preserves.lift _)

theorem firstEmpty_le {keyInt : ℕ} {keyInts depths : List ℕ} {depth : ℕ}
    (h : firstEmpty keyInt keyInts depths = .ok depth) : depth ∈ depths := by
  induction depths with
  | nil => cases h
  | cons d depths ih =>
    obtain ⟨range, -, h⟩ := Exn.bind_ok.1 h
    split at h
    · rw [Exn.pure_ok.1 h]
      exact List.mem_cons_self
    · exact List.mem_cons_of_mem _ (ih h)

theorem nonInclusionProof_preserves (o : Outpoint) : Preserves (Current s) (nonInclusionProof o) := by
  refine Preserves.get_bind fun c hc => Preserves.lift_bind fun _ _ => ?_
  refine Preserves.keeps_bind (merkleItems_keeps s) (Preserves.keeps_bind (merkleKeyInts_keeps s) ?_)
  refine Preserves.lift_bind fun depth hdepth => ?_
  have hle : depth ≤ merkleDepthBits := by
    have := List.mem_range.1 (firstEmpty_le hdepth)
    omega
  exact Preserves.keeps_bind (onSubtrees_keeps (proofSiblings_keeps s _ hle)) (Preserves.lift _)

variable {s}

theorem add_runOn (c : CachedSet C) (u : UTXO) : (∃ s', c.unspent.add u = .ok s' ∧ (add u).runOn c = (.ok (), fresh s')) ∨
    ∃ e, c.unspent.add u = .error e ∧ (add u).runOn c = (.error e, c) := by
  unfold add
  rw [Stateful.runOn_bind, Stateful.runOn_get]
  dsimp only
  rw [Stateful.runOn_bind, Stateful.runOn_lift]
  cases c.unspent.add u with
  | ok s' => exact .inl ⟨s', rfl, rfl⟩
  | error e => exact .inr ⟨e, rfl, rfl⟩

theorem remove_runOn (c : CachedSet C) (o : Outpoint) :
    (∃ u s', c.unspent.get o = some u ∧ c.unspent.remove o = .ok s' ∧ (remove o).runOn c = (.ok u, fresh s')) ∨
    ∃ e, c.unspent.get o = none ∧ (remove o).runOn c = (.error e, c) := by
  unfold remove
  rw [Stateful.runOn_bind, Stateful.runOn_get]
  dsimp only
  rw [Stateful.runOn_bind, Stateful.runOn_lift]
  cases hget : c.unspent.get o with
  | none => exact .inr ⟨_, rfl, rfl⟩
  | some u =>
    obtain ⟨s', hs'⟩ : ∃ s', c.unspent.remove o = .ok s' := by
      unfold UTXOSet.remove
      split
      · exact ⟨_, rfl⟩
      · rename_i hnone
        cases hget.symm.trans hnone
    refine .inl ⟨u, s', rfl, hs', ?_⟩
    dsimp only [Exn.get_some]
    rw [Stateful.runOn_bind, Stateful.runOn_lift, hs']
    rfl

/-- The caches are current after every call. -/
theorem call_current {c : CachedSet C} (hc : Current c.unspent c) (x : SetCall) :
    Current (c.call x).2.unspent (c.call x).2 := by
  have hquery : ∀ {d : CachedSet C}, Current c.unspent d → Current d.unspent d := by
    intro d hd
    rw [hd.unspent]
    exact hd
  cases x with
  | add u =>
    unfold call
    dsimp only
    rcases add_runOn c u with ⟨s', -, hrun⟩ | ⟨e, -, hrun⟩
    · rw [hrun]
      exact current_fresh s'
    · rw [hrun]
      exact hc
  | remove o =>
    unfold call
    dsimp only
    rw [Stateful.runOn_bind]
    rcases remove_runOn c o with ⟨u, s', -, -, hrun⟩ | ⟨e, -, hrun⟩
    · rw [hrun]
      exact current_fresh s'
    · rw [hrun]
      exact hc
  | merkleRoot => exact hquery ((Preserves.of_keeps (merkleRoot_keeps c.unspent)).discard c hc)
  | inclusionProof o => exact hquery ((inclusionProof_preserves c.unspent o).discard c hc)
  | nonInclusionProof o => exact hquery ((nonInclusionProof_preserves c.unspent o).discard c hc)

/-- **No cached subtree is ever stale.** -/
theorem runCalls_current (calls : List SetCall) : Current (runCalls C calls).unspent (runCalls C calls) := by
  unfold runCalls
  induction calls using List.reverseRecOn with
  | nil => exact current_fresh _
  | append_singleton calls x ih =>
    rw [List.foldl_append]
    exact call_current ih x

end CachedSet

/-! ## Owners -/

/-- **`by_owner`** returns the members with that owner. -/
theorem UTXOSet.byOwner_eq (s : UTXOSet C) (w : Hash) :
    s.byOwner w = .ok (s.entries.filter fun u => u.ownerPubkeyHash = w) := by
  have hmembers : (s.entries.filter fun u => u.ownerPubkeyHash = w).map (fun u => u.outpoint) =
      (s.utxos.toList.filter fun p => p.2.ownerPubkeyHash = w).map Prod.fst := by
    unfold entries
    rw [List.filter_map, List.map_map]
    exact List.map_congr_left fun p hp => s.outpoint_eq (Table.mem_toList.1 (List.mem_of_mem_filter hp))
  have hascending : ((s.entries.filter fun u => u.ownerPubkeyHash = w).map fun u => u.outpoint).Pairwise (· < ·) := by
    rw [hmembers]
    have hkeys := s.utxos.keys_ascending
    rw [← Std.ExtTreeMap.map_fst_toList_eq_keys] at hkeys
    exact hkeys.sublist (List.filter_sublist.map _)
  -- the group of an owner, in order, is the members in order
  have hgroup : ascending (ownersOf s.utxos w) =
      (s.entries.filter fun u => u.ownerPubkeyHash = w).map fun u => u.outpoint := by
    have hle : List.Pairwise (fun a b => id a ≤ id b) _ := hascending.imp le_of_lt
    have hlist := (ascending_toFinset _ (hascending.imp ne_of_lt)).trans (sortBy_eq_self hle)
    refine Eq.trans (congrArg ascending ?_) hlist
    ext o
    rw [ownersOf, List.mem_toFinset, ← hmembers]
    exact (@List.mem_toFinset _ (fun a b => LinearOrder.toDecidableEq a b) _ _).symm
  unfold byOwner
  rw [s.owner_eq]
  unfold filed
  split
  · rename_i hnone
    split at hnone
    · rename_i hempty
      rw [hempty] at hgroup
      have hnil := congrArg List.length hgroup
      rw [length_ascending, Finset.card_empty, List.length_map] at hnil
      rw [List.length_eq_zero_iff.1 hnil.symm]
    · cases hnone
  · rename_i group hsome
    split at hsome
    · cases hsome
    · cases hsome
      have hlookup : (ascending (ownersOf s.utxos w)).mapM (item s.utxos) =
          .ok (s.entries.filter fun u => u.ownerPubkeyHash = w) := by
        rw [hgroup, List.mapM_map]
        refine (Exn.mapM_eq_map (g := id) fun u hu => ?_).trans (by rw [List.map_id])
        exact item_ok.2 (mem_entries.1 (List.mem_of_mem_filter hu))
      rw [hlookup, Exn.ok_bind, sortBy_eq_self ((List.pairwise_map.1 hascending).imp le_of_lt)]
      rfl

/-! ## Collisions -/

/-- What the plain recursion hashes for a set: every subtree, and every member. -/
def UTXOSet.rootInputs (s : UTXOSet C) : Set Bytes :=
  {b | (∃ levels ≤ merkleDepthBits, ∃ pre,
      b = treeInput C (Sparse.top (treeDigest C) merkleDepthBits s.treeItems levels pre)) ∨
    ∃ u ∈ s.entries, b = domainUtxo :: u.toBytes}

variable (C) in
/-- Leaves, nodes and empty subtrees whose byte strings are among the given ones. -/
def usable (B : Set Bytes) : Set (Sparse.Input UTXO Hash) :=
  {x | treeInput C x ∈ B ∧ x.depth merkleDepthBits ≤ merkleDepthBits ∧
    ∀ k u, x = .leaf k u → k = keyIntOf (u.outpoint.key C) ∧ domainUtxo :: u.toBytes ∈ B}

/-- The three kinds of nodes have domains of their own, and each carries its fields. -/
theorem treeDigest_injOn {B : Set Bytes} (hinj : Set.InjOn C.hashBytes B) :
    Set.InjOn (treeDigest C) (usable C B) := by
  have hdepth : ∀ {d d' : ℕ}, d ≤ merkleDepthBits → d' ≤ merkleDepthBits → le 2 d = le 2 d' → d = d' := by
    intro d d' hd hd' h
    unfold merkleDepthBits hashLenBytes at hd hd'
    exact le_inj (by omega) (by omega) h
  intro x hx y hy h
  obtain ⟨hxB, hxd, hxleaf⟩ := hx
  obtain ⟨hyB, hyd, hyleaf⟩ := hy
  have hbytes := hinj hxB hyB h
  -- nodes of different kinds are hashed under different domains
  cases x with
  | leaf k u =>
    cases y with
    | leaf k' u' =>
      obtain ⟨-, hvalue⟩ := List.append_inj (List.cons.inj hbytes).2 (by simp)
      obtain ⟨hk, hu⟩ := hxleaf k u rfl
      obtain ⟨hk', hu'⟩ := hyleaf k' u' rfl
      have hencoded := hinj hu hu' (FixedBytes.bytes_inj.1 hvalue)
      have heq := UTXO.toBytes_injective (List.cons.inj hencoded).2
      rw [hk, hk', heq]
    | node d l r => exact absurd (List.cons.inj hbytes).1 (by decide)
    | empty d => exact absurd (List.cons.inj hbytes).1 (by decide)
  | node d l r =>
    cases y with
    | leaf k u => exact absurd (List.cons.inj hbytes).1 (by decide)
    | node d' l' r' =>
      obtain ⟨hchildren, hr⟩ := List.append_inj' (List.cons.inj hbytes).2 (by simp)
      obtain ⟨hd, hl⟩ := List.append_inj' hchildren (by simp)
      have hdd : d = d' := hdepth hxd hyd hd
      rw [hdd, FixedBytes.bytes_inj.1 hl, FixedBytes.bytes_inj.1 hr]
    | empty d' => exact absurd (List.cons.inj hbytes).1 (by decide)
  | empty d =>
    cases y with
    | leaf k u => exact absurd (List.cons.inj hbytes).1 (by decide)
    | node d' l r => exact absurd (List.cons.inj hbytes).1 (by decide)
    | empty d' =>
      have hdd : d = d' := hdepth hxd hyd (List.cons.inj hbytes).2
      rw [hdd]

namespace UTXOSet

variable {s s' : UTXOSet C} {B : Set Bytes}

theorem top_usable (hB : s.rootInputs ⊆ B) {levels : ℕ} (hle : levels ≤ merkleDepthBits) (pre : ℕ) :
    Sparse.top (treeDigest C) merkleDepthBits s.treeItems levels pre ∈ usable C B := by
  refine ⟨hB (.inl ⟨levels, hle, pre, rfl⟩), ?_, fun k u hleaf => ?_⟩
  · rw [Sparse.depth_top]
    exact Nat.sub_le _ _
  · obtain ⟨-, -, hget⟩ := Sparse.top_eq_leaf _ _ _ hleaf
    obtain ⟨hu, hk⟩ := CachedSet.get_treeItems.1 hget
    exact ⟨hk.symm, hB (.inr ⟨u, hu, rfl⟩)⟩

/-- **Roots determine sets** where no two of the hashed byte strings collide. -/
theorem plainRoot_inj (hinj : Set.InjOn C.hashBytes (s.rootInputs ∪ s'.rootInputs))
    (h : s.plainRoot = s'.plainRoot) : s = s' := by
  have hget : ∀ k < 2 ^ merkleDepthBits, Sparse.get s.treeItems k = Sparse.get s'.treeItems k := by
    intro k hk
    refine Sparse.root_inj (treeDigest_injOn hinj) (fun l hl p => top_usable Set.subset_union_left hl p)
      (fun l hl p => top_usable Set.subset_union_right hl p) le_rfl ?_
    rw [Nat.div_eq_of_lt hk]
    exact h
  have hsub : ∀ {t t' : UTXOSet C}, (∀ k < 2 ^ merkleDepthBits, Sparse.get t.treeItems k = Sparse.get t'.treeItems k) →
      ∀ {o : Outpoint} {u : UTXO}, t.get o = some u → t'.get o = some u := by
    intro t t' htt o u hu
    have ho := outpoint_of_get hu
    subst ho
    have hmem := CachedSet.get_treeItems.2 ⟨mem_entries.2 hu, rfl⟩
    rw [htt _ (keyIntOf_lt _)] at hmem
    exact mem_entries.1 (CachedSet.get_treeItems.1 hmem).1
  refine ext_get fun o => Option.ext fun u => ⟨hsub hget, hsub fun k hk => (hget k hk).symm⟩

end UTXOSet

/-- **The UTXO commitment is canonical.** After every sequence of calls on a UTXO set the
three indexes agree, a change that fails changes nothing, `by_owner` returns the members of
the owner, and `merkle_root` returns the plain recursion over the members; where no two of
the byte strings hashed for two sets collide, equal roots mean equal sets. -/
theorem commitment_canonical (C : Crypto) (calls : List SetCall) :
    let c := CachedSet.runCalls C calls
    ((∀ (o : Outpoint) (u : UTXO), c.unspent.utxos[o]? = some u → u.outpoint = o) ∧
      (∀ (k : Hash) (o : Outpoint), c.unspent.outpointByKey[k]? = some o ↔
        (∃ u, c.unspent.utxos[o]? = some u) ∧ o.key C = k) ∧
      (∀ (w : Hash) (o : Outpoint), (∃ group, c.unspent.outpointsByOwner[w]? = some group ∧ o ∈ group) ↔
        ∃ u, c.unspent.utxos[o]? = some u ∧ u.ownerPubkeyHash = w)) ∧
    (∀ u e, ((CachedSet.add u).runOn c).1 = .error e → ((CachedSet.add u).runOn c).2 = c) ∧
    (∀ o e, ((CachedSet.remove o).runOn c).1 = .error e → ((CachedSet.remove o).runOn c).2 = c) ∧
    (∀ w, c.unspent.byOwner w = .ok (c.unspent.entries.filter fun u => u.ownerPubkeyHash = w)) ∧
    (CachedSet.merkleRoot.runOn c).1 = .ok c.unspent.plainRoot ∧
    (∀ calls', let c' := CachedSet.runCalls C calls'
      Set.InjOn C.hashBytes (c.unspent.rootInputs ∪ c'.unspent.rootInputs) →
      (CachedSet.merkleRoot.runOn c).1 = (CachedSet.merkleRoot.runOn c').1 → c.unspent = c'.unspent) := by
  intro c
  have hroot : ∀ l, (CachedSet.merkleRoot.runOn (CachedSet.runCalls C l)).1 =
      .ok (CachedSet.runCalls C l).unspent.plainRoot := by
    intro l
    obtain ⟨c', hrun, -⟩ := CachedSet.merkleRoot_keeps _ _ (CachedSet.runCalls_current l)
    rw [hrun]
  refine ⟨⟨fun o u => c.unspent.outpoint_eq, fun k o => c.unspent.key_iff, fun w o => ?_⟩, fun u e h => ?_,
    fun o e h => ?_, c.unspent.byOwner_eq, hroot calls, ?_⟩
  · rw [c.unspent.owner_eq, ← mem_ownersOf]
    unfold filed
    split
    · rename_i hempty
      simp [hempty]
    · simp
  · rcases CachedSet.add_runOn c u with ⟨s', -, hrun⟩ | ⟨e', -, hrun⟩
    · rw [hrun] at h
      cases h
    · rw [hrun]
  · rcases CachedSet.remove_runOn c o with ⟨u, s', -, -, hrun⟩ | ⟨e', -, hrun⟩
    · rw [hrun] at h
      cases h
    · rw [hrun]
  · intro calls' c' hinj h
    rw [hroot calls, hroot calls'] at h
    exact UTXOSet.plainRoot_inj hinj (Except.ok.inj h)

/-! ## A set of one coin -/

/-- The first bytes of a string, in place of BLAKE3. -/
def headHash (b : Bytes) : Hash := ⟨(b ++ List.replicate 32 0).take 32, by simp⟩

def headCrypto : Crypto := ⟨headHash, fun _ _ _ => true⟩

theorem take_of_headHash {b b' : Bytes} (hb : 3 ≤ b.length) (hb' : 3 ≤ b'.length) (h : headHash b = headHash b') :
    b.take 3 = b'.take 3 := by
  have htake : ∀ {b : Bytes}, 3 ≤ b.length → (headHash b).bytes.take 3 = b.take 3 := by
    intro b hb
    unfold headHash
    rw [List.take_take, min_eq_left (by omega), List.take_append_of_le_length hb]
  rw [← htake hb, ← htake hb', h]

/-- What is hashed for the set of one coin and for the empty set. -/
def loneInputs (coin : UTXO) : Set Bytes :=
  let k := keyIntOf (coin.outpoint.key headCrypto)
  {b | b = domainUtxo :: coin.toBytes ∨ b = treeInput headCrypto (.leaf k coin) ∨
    (∃ d ≤ merkleDepthBits, ∃ l r, b = treeInput headCrypto (.node d l r) ∧
      Sparse.top (treeDigest headCrypto) merkleDepthBits [(k, coin)] (merkleDepthBits - d)
        (k / 2 ^ (merkleDepthBits - d)) = .node d l r) ∨
    ∃ d ≤ merkleDepthBits, b = treeInput headCrypto (.empty d)}

theorem rootInputs_lone {s : UTXOSet headCrypto} {coin : UTXO} (hs : s.entries = [] ∨ s.entries = [coin]) :
    s.rootInputs ⊆ loneInputs coin := by
  have hmem : ∀ u ∈ s.entries, u = coin := by
    intro u hu
    rcases hs with hs | hs
    · rw [hs] at hu
      cases hu
    · rw [hs] at hu
      exact List.mem_singleton.1 hu
  rintro b (⟨levels, hle, pre, rfl⟩ | ⟨u, hu, rfl⟩)
  · have hdepth := Sparse.depth_top (treeDigest headCrypto) merkleDepthBits s.treeItems levels pre
    cases hx : Sparse.top (treeDigest headCrypto) merkleDepthBits s.treeItems levels pre with
    | leaf k u =>
      obtain ⟨-, -, hget⟩ := Sparse.top_eq_leaf _ _ _ hx
      obtain ⟨hu, rfl⟩ := CachedSet.get_treeItems.1 hget
      rw [hmem u hu]
      exact .inr (.inl rfl)
    | node d l r =>
      rw [hx] at hdepth
      have hd : d = merkleDepthBits - levels := hdepth
      have hlevels : levels = merkleDepthBits - d := by omega
      -- a node is hashed only above a member, and there is only one
      have hocc : Sparse.Occupied s.treeItems levels pre := by
        by_contra hnot
        rw [Sparse.top_not_occupied _ _ _ hnot] at hx
        cases hx
      obtain ⟨x, hx', hpre⟩ := hocc
      obtain ⟨u, hu, rfl⟩ := List.mem_map.1 hx'
      have hentries : s.entries = [coin] := hs.resolve_left (List.ne_nil_of_mem hu)
      have hitems : s.treeItems = [(keyIntOf (coin.outpoint.key headCrypto), coin)] := by
        rw [UTXOSet.treeItems, hentries]
        rfl
      rw [hmem u hu] at hpre
      rw [hitems, ← hpre, hlevels] at hx
      exact .inr (.inr (.inl ⟨d, by omega, l, r, rfl, hx⟩))
    | empty d =>
      rw [hx] at hdepth
      have hd : d = merkleDepthBits - levels := hdepth
      exact .inr (.inr (.inr ⟨d, by omega, rfl⟩))
  · rw [hmem u hu]
    exact .inl rfl

/-- The domain and the depth tell the hashed strings apart. -/
theorem headHash_injOn (coin : UTXO) : Set.InjOn headHash (loneInputs coin) := by
  have htree : ∀ x, 3 ≤ (treeInput headCrypto x).length := by
    rintro (⟨k, u⟩ | ⟨d, l, r⟩ | d) <;> simp [treeInput]
  have hlen : ∀ b ∈ loneInputs coin, 3 ≤ b.length := by
    rintro b (rfl | rfl | ⟨d, hd, l, r, rfl, htop⟩ | ⟨d, hd, rfl⟩)
    · simp [UTXO.toBytes]
      omega
    all_goals exact htree _
  have hdepth : ∀ {d d' : ℕ}, d ≤ merkleDepthBits → d' ≤ merkleDepthBits → (le 2 d).take 2 = (le 2 d').take 2 →
      d = d' := by
    intro d d' hd hd' h
    unfold merkleDepthBits hashLenBytes at hd hd'
    rw [List.take_of_length_le (by simp), List.take_of_length_le (by simp)] at h
    exact le_inj (by omega) (by omega) h
  intro b hb b' hb' h
  have htake := take_of_headHash (hlen b hb) (hlen b' hb') h
  rcases hb with rfl | rfl | ⟨d, hd, l, r, rfl, htop⟩ | ⟨d, hd, rfl⟩ <;>
    rcases hb' with rfl | rfl | ⟨d', hd', l', r', rfl, htop'⟩ | ⟨d', hd', rfl⟩
  -- another kind of string has another domain
  any_goals
    refine absurd (List.cons.inj htake).1 ?_
    decide
  · rfl
  · rfl
  · have htail := (List.cons.inj htake).2
    rw [List.append_assoc, List.append_assoc, List.take_append_of_le_length (by simp),
      List.take_append_of_le_length (by simp)] at htail
    have hdd : d = d' := hdepth hd hd' htail
    rw [hdd, htop'] at htop
    rw [hdd, htop]
  · have hdd : d = d' := hdepth hd hd' (List.cons.inj htake).2
    rw [hdd]

/-- A coin of one matom. -/
def loneCoin : UTXO := ⟨⟨⟨genesisParentHash, 0, Nat.zero_le _⟩, 1, .pkh, genesisParentHash, 0, 0, []⟩, by decide⟩

theorem entries_lone : (CachedSet.runCalls headCrypto [.add loneCoin]).unspent.entries = [loneCoin] := by
  decide +kernel

theorem entries_none : (CachedSet.runCalls headCrypto []).unspent.entries = [] := by
  decide +kernel

theorem lone_root_ne : (CachedSet.merkleRoot.runOn (CachedSet.runCalls headCrypto [.add loneCoin])).1 ≠
    (CachedSet.merkleRoot.runOn (CachedSet.runCalls headCrypto [])).1 := by
  intro h
  have hsame := (commitment_canonical headCrypto [.add loneCoin]).2.2.2.2.2 []
    ((headHash_injOn loneCoin).mono
      (Set.union_subset (rootInputs_lone (.inr entries_lone)) (rootInputs_lone (.inl entries_none)))) h
  have hentries := congrArg UTXOSet.entries hsame
  rw [entries_lone, entries_none] at hentries
  cases hentries

end TensorPow
