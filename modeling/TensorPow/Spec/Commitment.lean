import TensorPow.Spec.Utxo
import TensorPow.Exn.State

/-!
# The sparse Merkle commitment of the UTXO set

The rest of `state/utxo.py`: the root of a UTXO set, inclusion and absence proofs and
their verification. A `CachedSet` is a `UTXOSet` object with its three caches, which the
queries fill and every change clears.

* `subtreeRoot`: the recursion over bisected ranges of the sorted keys, with its cache.
* `CachedSet.merkleRoot`, `CachedSet.inclusionProof`, `CachedSet.nonInclusionProof`.
* `verifyProof`: the walk of the verifier, from the leaf or the empty subtree up.
-/

namespace TensorPow

open Wire Sorted Exn

/-- `MERKLE_DEPTH_BITS`. -/
def merkleDepthBits : ℕ := hashLenBytes * 8

/-! ## Hashes -/

section Hashes

variable (C : Crypto)

/-- `_leaf_hash`. -/
def leafHash (key valueHash : Hash) : Hash := C.domainHash domainMerkleLeaf (key.bytes ++ valueHash.bytes)

/-- `_node_hash`. -/
def nodeHash (depth : ℕ) (left right : Hash) : Hash :=
  C.domainHash domainMerkleNode (le 2 depth ++ left.bytes ++ right.bytes)

/-- `_empty_hash`. -/
def emptyHash (depth : ℕ) : Hash := C.domainHash domainMerkleEmpty (le 2 depth)

end Hashes

/-! ## Ranges of keys -/

/-- `_MerkleItem`. -/
structure MerkleItem where
  keyInt : ℕ
  key : Hash
  valueHash : Hash
deriving DecidableEq

/-- `bisect_left(l, x, lo)`: where `x` belongs in an ascending list, from `lo` on. -/
def bisectLeft (l : List ℕ) (x lo : ℕ) : ℕ := lo + ((l.drop lo).takeWhile (· < x)).length

/-- `_range_for_prefix`: the positions of the keys with the prefix. -/
def rangeForPrefix (keyInts : List ℕ) (depth pre : ℕ) : Except PyError (ℕ × ℕ) := do
  Exn.ensure (depth ≤ merkleDepthBits) (.valueError "depth outside sparse Merkle tree")
  Exn.ensure (pre < 2 ^ depth) (.valueError "prefix outside sparse Merkle tree")
  let shift := merkleDepthBits - depth
  let start := bisectLeft keyInts (pre * 2 ^ shift) 0
  return (start, bisectLeft keyInts ((pre + 1) * 2 ^ shift) start)

/-- `_prefix_int`. -/
def prefixInt (keyInt bitCount : ℕ) : ℕ :=
  if bitCount = 0 then 0 else keyInt / 2 ^ (merkleDepthBits - bitCount)

/-- `int.from_bytes(key, "big")`. -/
def keyIntOf (key : Hash) : ℕ := ofBe key.bytes

/-- `_bit_at`: most significant bit of each byte first. -/
def keyBitAt (key : Hash) (bitIndex : ℕ) : Bool := (key.bytes.getD (bitIndex / 8) 0).val.testBit (7 - bitIndex % 8)

/-! ## Subtrees -/

/-- The subtree cache, by depth and prefix. -/
abbrev SubtreeCache := Table (ℕ ×ₗ ℕ) Hash

instance subtreeTransCmp : Std.TransCmp (compare : ℕ ×ₗ ℕ → ℕ ×ₗ ℕ → Ordering) := inferInstance

section Subtrees

variable (C : Crypto) (items : List MerkleItem) (keyInts : List ℕ)

/-- What `_subtree_root` does around a node: a cached hash is returned, an empty range has
the hash of its depth, and a hash that had to be built is cached. -/
def subtreeNode (depth pre : ℕ) (build : ℕ × ℕ → Stateful PyError SubtreeCache Hash) :
    Stateful PyError SubtreeCache Hash := do
  match (← get)[toLex (depth, pre)]? with
  | some node => return node
  | none =>
    let range ← Stateful.lift (rangeForPrefix keyInts depth pre)
    if range.1 = range.2 then return emptyHash C depth
    let node ← build range
    modify fun cache => cache.insert (toLex (depth, pre)) node
    return node

/-- The leaf of a range of one key. -/
def subtreeLeaf (range : ℕ × ℕ) : Except PyError Hash := do
  Exn.ensure (range.2 - range.1 = 1) (.valueError "duplicate UTXO Merkle key")
  let item ← Exn.get items[range.1]? (.indexError "tuple index out of range")
  return leafHash C item.key item.valueHash

/-- `_subtree_root` at depth `MERKLE_DEPTH_BITS - levels`. -/
def subtreeRoot : ℕ → ℕ → Stateful PyError SubtreeCache Hash
  | 0, pre => subtreeNode C keyInts merkleDepthBits pre fun range => Stateful.lift (subtreeLeaf C items range)
  | levels + 1, pre =>
    subtreeNode C keyInts (merkleDepthBits - (levels + 1)) pre fun _ => do
      let left ← subtreeRoot levels (2 * pre)
      let right ← subtreeRoot levels (2 * pre + 1)
      return nodeHash C (merkleDepthBits - (levels + 1)) left right

/-- `_proof_siblings`. -/
def proofSiblings (key : Hash) (depthLimit : ℕ) : Stateful PyError SubtreeCache (List Hash) := do
  Stateful.lift (Exn.ensure (depthLimit ≤ merkleDepthBits) (.valueError "depth_limit outside sparse Merkle tree"))
  (List.range depthLimit).mapM fun bitIndex =>
    subtreeRoot C items keyInts (merkleDepthBits - (bitIndex + 1))
      (2 * prefixInt (keyIntOf key) bitIndex + (1 - (keyBitAt key bitIndex).toNat))

end Subtrees

/-- The loop of `_first_empty_depth`. -/
def firstEmpty (keyInt : ℕ) (keyInts : List ℕ) : List ℕ → Except PyError ℕ
  | [] => .error (.valueError "key is already present in sparse Merkle tree")
  | depth :: depths => do
    let range ← rangeForPrefix keyInts depth (prefixInt keyInt depth)
    if range.1 = range.2 then return depth
    firstEmpty keyInt keyInts depths

/-- `_first_empty_depth`. -/
def firstEmptyDepth (key : Hash) (keyInts : List ℕ) : Except PyError ℕ :=
  firstEmpty (keyIntOf key) keyInts (List.range (merkleDepthBits + 1))

/-! ## Proofs -/

/-- `_require_siblings`. -/
def requireSiblings (siblings : List Hash) (expectedLen : ℕ) : Except PyError Unit := do
  Exn.ensure (siblings.length = expectedLen) (.valueError ("siblings must contain " ++ toString expectedLen ++ " hashes"))
  Exn.ensure siblings.Nodup (.valueError "siblings must not contain duplicates")

/-- The fields of an inclusion proof. -/
structure InclusionFields where
  outpoint : Outpoint
  utxo : UTXO
  siblings : List Hash
deriving DecidableEq

/-- `UTXOInclusionProof.__post_init__`. -/
def InclusionFields.postInit (p : InclusionFields) : Except PyError Unit := do
  Exn.ensure (p.utxo.outpoint = p.outpoint) (.valueError "proof UTXO must match proof outpoint")
  requireSiblings p.siblings merkleDepthBits

/-- `UTXOInclusionProof`. -/
structure InclusionProof extends InclusionFields where
  valid : toInclusionFields.postInit = .ok ()
deriving DecidableEq

/-- The constructor: the fields, if they pass the checks. -/
def InclusionProof.make (f : InclusionFields) : Except PyError InclusionProof :=
  match h : f.postInit with
  | .ok () => .ok ⟨f, h⟩
  | .error e => .error e

/-- The fields of a proof of absence. -/
structure NonInclusionFields where
  outpoint : Outpoint
  emptyDepth : ℕ
  siblings : List Hash
deriving DecidableEq

/-- `UTXONonInclusionProof.__post_init__`. -/
def NonInclusionFields.postInit (p : NonInclusionFields) : Except PyError Unit := do
  requireUint "empty_depth" p.emptyDepth u16Max
  Exn.ensure (p.emptyDepth ≤ merkleDepthBits) (.valueError "empty_depth outside sparse Merkle tree")
  requireSiblings p.siblings p.emptyDepth

/-- `UTXONonInclusionProof`. -/
structure NonInclusionProof extends NonInclusionFields where
  valid : toNonInclusionFields.postInit = .ok ()
deriving DecidableEq

/-- The constructor: the fields, if they pass the checks. -/
def NonInclusionProof.make (f : NonInclusionFields) : Except PyError NonInclusionProof :=
  match h : f.postInit with
  | .ok () => .ok ⟨f, h⟩
  | .error e => .error e

/-- `UTXOProof`. -/
inductive UTXOProof where
  | inclusion (p : InclusionProof)
  | nonInclusion (p : NonInclusionProof)

/-- `proof.outpoint`. -/
def UTXOProof.outpoint : UTXOProof → Outpoint
  | .inclusion p => p.outpoint
  | .nonInclusion p => p.outpoint

/-- One round of the loop of `verify_proof`. The siblings have been counted. -/
def climb (C : Crypto) (key : Hash) (siblings : List Hash) (node : Hash) (bitIndex : ℕ) : Hash :=
  let sibling := siblings.getD bitIndex genesisParentHash
  if keyBitAt key bitIndex = false then nodeHash C bitIndex node sibling else nodeHash C bitIndex sibling node

/-- The loop of `verify_proof`, from `start_depth` up. -/
def climbFrom (C : Crypto) (key : Hash) (siblings : List Hash) (startDepth : ℕ) (node : Hash) : Hash :=
  (List.range startDepth).reverse.foldl (climb C key siblings) node

/-- `UTXOSet.verify_proof`. -/
def verifyProof (C : Crypto) (outpoint : Outpoint) (proof : UTXOProof) (root : Hash) : Bool :=
  if proof.outpoint ≠ outpoint then false
  else
    let key := outpoint.key C
    match proof with
    | .inclusion p =>
      if requireSiblings p.siblings merkleDepthBits ≠ .ok () then false
      else if p.utxo.outpoint ≠ outpoint then false
      else climbFrom C key p.siblings merkleDepthBits (leafHash C key (p.utxo.valueHash C)) = root
    | .nonInclusion p =>
      if requireSiblings p.siblings p.emptyDepth ≠ .ok () then false
      else if ¬p.emptyDepth ≤ merkleDepthBits then false
      else climbFrom C key p.siblings p.emptyDepth (emptyHash C p.emptyDepth) = root

/-! ## The set with its caches -/

/-- `UTXOSet.by_owner`. -/
def UTXOSet.byOwner {C : Crypto} (s : UTXOSet C) (owner : Hash) : Except PyError (List UTXO) :=
  match s.outpointsByOwner[owner]? with
  | none => .ok []
  | some outpoints => do
    let utxos ← (ascending outpoints).mapM (item s.utxos)
    return sortBy (fun u => u.outpoint) utxos

/-- A `UTXOSet` with `_items_cache`, `_key_ints_cache` and `_subtree_cache`. -/
structure CachedSet (C : Crypto) where
  unspent : UTXOSet C
  itemsCache : Option (List MerkleItem)
  keyIntsCache : Option (List ℕ)
  subtreeCache : SubtreeCache

namespace CachedSet

variable {C : Crypto}

/-- A set whose caches are cleared, by `_invalidate_merkle_cache`. -/
def fresh (unspent : UTXOSet C) : CachedSet C := ⟨unspent, none, none, ∅⟩

/-- `UTXOSet()`. -/
def empty : CachedSet C := fresh .empty

/-- `UTXOSet.add`. -/
def add (utxo : UTXO) : Stateful PyError (CachedSet C) Unit := do
  let unspent ← Stateful.lift ((← get).unspent.add utxo)
  set (fresh unspent)

/-- `UTXOSet.remove`. -/
def remove (outpoint : Outpoint) : Stateful PyError (CachedSet C) UTXO := do
  let s ← get
  let utxo ← Stateful.lift
    (Exn.get (s.unspent.get outpoint) (.keyError "outpoint is not present in UTXO set"))
  let unspent ← Stateful.lift (s.unspent.remove outpoint)
  set (fresh unspent)
  return utxo

/-- The items of the tree: sorted tuples of key, key bytes and value hash. -/
def sortedItems (s : UTXOSet C) : List MerkleItem :=
  sortBy (fun item => toLex (item.keyInt, toLex (item.key, item.valueHash)))
    (s.entries.map fun u => ⟨keyIntOf (u.outpoint.key C), u.outpoint.key C, u.valueHash C⟩)

/-- `_merkle_items`. -/
def merkleItems : Stateful PyError (CachedSet C) (List MerkleItem) := do
  let s ← get
  match s.itemsCache with
  | some cached => return cached
  | none =>
    let items := sortedItems s.unspent
    set { s with itemsCache := some items }
    return items

/-- `_merkle_key_ints`. -/
def merkleKeyInts : Stateful PyError (CachedSet C) (List ℕ) := do
  match (← get).keyIntsCache with
  | some cached => return cached
  | none =>
    let keyInts := (← merkleItems).map MerkleItem.keyInt
    modify fun s => { s with keyIntsCache := some keyInts }
    return keyInts

/-- A computation on the subtree cache. -/
def onSubtrees {α : Type} (m : Stateful PyError SubtreeCache α) : Stateful PyError (CachedSet C) α :=
  Stateful.zoom subtreeCache (fun s cache => { s with subtreeCache := cache }) m

/-- `UTXOSet.merkle_root`. -/
def merkleRoot : Stateful PyError (CachedSet C) Hash := do
  let items ← merkleItems
  let keyInts ← merkleKeyInts
  onSubtrees (subtreeRoot C items keyInts merkleDepthBits 0)

/-- `UTXOSet.inclusion_proof`. -/
def inclusionProof (outpoint : Outpoint) : Stateful PyError (CachedSet C) InclusionProof := do
  let utxo ← Stateful.lift
    (Exn.get ((← get).unspent.get outpoint) (.keyError "outpoint is not present in UTXO set"))
  let items ← merkleItems
  let keyInts ← merkleKeyInts
  let siblings ← onSubtrees (proofSiblings C items keyInts (outpoint.key C) merkleDepthBits)
  Stateful.lift (InclusionProof.make { outpoint, utxo, siblings })

/-- `UTXOSet.non_inclusion_proof`. -/
def nonInclusionProof (outpoint : Outpoint) : Stateful PyError (CachedSet C) NonInclusionProof := do
  Stateful.lift (Exn.ensure ((← get).unspent.get outpoint = none) (.keyError "outpoint is present in UTXO set"))
  let items ← merkleItems
  let keyInts ← merkleKeyInts
  let emptyDepth ← Stateful.lift (firstEmptyDepth (outpoint.key C) keyInts)
  let siblings ← onSubtrees (proofSiblings C items keyInts (outpoint.key C) emptyDepth)
  Stateful.lift (NonInclusionProof.make { outpoint, emptyDepth, siblings })

end CachedSet

/-! ## Runs -/

/-- One call on a UTXO set. -/
inductive SetCall where
  | add (utxo : UTXO)
  | remove (outpoint : Outpoint)
  | merkleRoot
  | inclusionProof (outpoint : Outpoint)
  | nonInclusionProof (outpoint : Outpoint)

/-- One call: whether it returned, and the set after it. -/
def CachedSet.call {C : Crypto} (s : CachedSet C) : SetCall → Except PyError Unit × CachedSet C
  | .add utxo => (add utxo).runOn s
  | .remove outpoint => (do let _ ← remove outpoint).runOn s
  | .merkleRoot => (do let _ ← merkleRoot).runOn s
  | .inclusionProof outpoint => (do let _ ← inclusionProof outpoint).runOn s
  | .nonInclusionProof outpoint => (do let _ ← nonInclusionProof outpoint).runOn s

/-- The set after a sequence of calls. -/
def CachedSet.runCalls (C : Crypto) (calls : List SetCall) : CachedSet C :=
  calls.foldl (fun s c => (s.call c).2) .empty

end TensorPow
