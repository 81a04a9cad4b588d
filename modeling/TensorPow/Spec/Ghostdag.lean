import TensorPow.Spec.Basic

/-!
# The fruit DAG and its GHOSTDAG ordering

`BlockDAG` of `consensus/ghostdag.py`: blocks by hash, a cache of strict ancestors
and a cache of GHOSTDAG metadata per `k`. Hashes are any linearly ordered type;
the node uses 32-byte digests.

* `addBlock`: add a fruit whose parents are known and older.
* `topologicalHashes`: the depth-first order the metadata is computed in.
* `ghostdagMetadata`, `ghostdagData`: the metadata of every fruit, or of one.
* `topologicalOrder`: the past of a fruit, sorted by blue score.
* `Built`: the DAGs reached from the empty one by adding blocks and by queries.
-/

namespace TensorPow

open Sorted

variable {η : Type} [LinearOrder η]

/-- Minimal fruit DAG record; its fields pass the checks of `__post_init__`. -/
structure FruitBlock (η : Type) where
  fruitHash : η
  parents : List η
  timestampMs : ℕ
  work : ℕ
  parents_nodup : parents.Nodup
  timestamp_le : timestampMs ≤ u64Max
  work_le : work ≤ u64Max
  work_pos : 0 < work
deriving DecidableEq

/-- Cached GHOSTDAG metadata for one fruit at one `k`. -/
structure GhostdagData (η : Type) [LinearOrder η] where
  selectedParent : Option η
  blues : Finset η
  reds : Finset η
  blueScore : ℕ
  accumulatedBlueWork : ℕ
deriving DecidableEq

/-- `BlockDAG`. -/
structure BlockDAG (η : Type) [LinearOrder η] where
  blocks : Table η (FruitBlock η)
  ancestorCache : Table η (Finset η)
  metadataCache : Table ℤ (Table η (GhostdagData η))

namespace BlockDAG

/-- `BlockDAG()`. -/
def empty : BlockDAG η := ⟨∅, ∅, ∅⟩

/-- `get_block`. -/
def getBlock (d : BlockDAG η) (h : η) : Except PyError (FruitBlock η) :=
  Exn.get d.blocks[h]? (.keyError "fruit_hash is unknown")

/-- `ancestors`: all strict ancestors of a fruit. -/
def ancestors (d : BlockDAG η) (h : η) : Except PyError (Finset η) := do
  let _ ← d.getBlock h
  item d.ancestorCache h

/-- The parent checks of `add_block`, in the order of the parents. -/
def checkParents (d : BlockDAG η) (block : FruitBlock η) : Except PyError Unit :=
  block.parents.foldlM (fun _ parent => do
    let parentBlock ← Exn.get d.blocks[parent]? (.keyError "parent is unknown")
    Exn.ensure (parentBlock.timestampMs < block.timestampMs)
      (.valueError "fruit timestamp must be greater than parent timestamps")) ()

/-- `add_block`: add a pre-built fruit block to the DAG. -/
def addBlock (d : BlockDAG η) (block : FruitBlock η) : Except PyError (BlockDAG η) := do
  Exn.ensure (d.blocks[block.fruitHash]? = none) (.valueError "fruit_hash already exists")
  d.checkParents block
  let ancestors ← block.parents.foldlM (fun (acc : Finset η) parent => do
    let cached ← item d.ancestorCache parent
    return insert parent acc ∪ cached) ∅
  return { blocks := d.blocks.insert block.fruitHash block
           ancestorCache := d.ancestorCache.insert block.fruitHash ancestors
           metadataCache := ∅ }

/-- `add_fruit`: build the block, whose checks may fail, and add it. -/
def addFruit (d : BlockDAG η) (h : η) (parents : List η) (timestampMs work : ℕ) :
    Except PyError (BlockDAG η) :=
  if hp : parents.Nodup then
    if ht : timestampMs ≤ u64Max then
      if hw : work ≤ u64Max then
        if h0 : 0 < work then d.addBlock ⟨h, parents, timestampMs, work, hp, ht, hw, h0⟩
        else .error (.valueError "work must be positive")
      else .error (.valueError "work outside uint64 range")
    else .error (.valueError "timestamp_ms outside uint64 range")
  else .error (.valueError "parents must not contain duplicates")

/-! ## The topological order -/

/-- The sets and the list that `visit` of `_topological_hashes` closes over. -/
structure Visit (η : Type) [LinearOrder η] where
  visited : Finset η
  visiting : Finset η
  ordered : List η

/-- `visit` of `_topological_hashes`, with a bound on the depth of the recursion. -/
def visit (d : BlockDAG η) : ℕ → Visit η → η → Except PyError (Visit η)
  | 0, _, _ => .error .recursionError
  | depth + 1, s, h =>
    if h ∈ s.visited then .ok s
    else if h ∈ s.visiting then .error (.valueError "fruit DAG contains a cycle")
    else do
      let block ← item d.blocks h
      let s ← block.parents.foldlM (d.visit depth) { s with visiting := insert h s.visiting }
      return { visited := insert h s.visited
               visiting := s.visiting.erase h
               ordered := s.ordered ++ [h] }

/-- The sort key of `_topological_hashes`. -/
def timeKey (p : η × FruitBlock η) : ℕ ×ₗ η := toLex (p.2.timestampMs, p.1)

/-- The known hashes by timestamp, then hash. -/
def hashesByTime (d : BlockDAG η) : List η := (sortBy timeKey d.blocks.toList).map Prod.fst

/-- `_topological_hashes`. The recursion is never deeper than the number of blocks. -/
def topologicalHashes (d : BlockDAG η) : Except PyError (List η) := do
  let s ← d.hashesByTime.foldlM (d.visit (d.blocks.size + 1)) ⟨∅, ∅, []⟩
  return s.ordered

/-! ## The metadata -/

/-- `_is_related`. -/
def isRelated (d : BlockDAG η) (left right : η) : Except PyError Bool :=
  if left = right then .ok true
  else do
    let ofRight ← d.ancestors right
    if left ∈ ofRight then return true
    let ofLeft ← d.ancestors left
    return decide (right ∈ ofLeft)

/-- `_anticone_size`. -/
def anticoneSize (d : BlockDAG η) (h : η) (candidateBlues : Finset η) : Except PyError ℕ :=
  (ascending candidateBlues).foldlM (fun n blue => do
    let related ← d.isRelated h blue
    return if related then n else n + 1) 0

/-- `_select_parent`: most accumulated blue work first, then the least hash. -/
def selectParent (parents : List η) (metadata : Table η (GhostdagData η)) : Except PyError η := do
  let keyed ← parents.mapM fun p => do
    let data ← item metadata p
    return ((-(data.accumulatedBlueWork : ℤ), p) : ℤ × η)
  match sortBy (fun q => (toLex q : ℤ ×ₗ η)) keyed with
  | [] => .error (.indexError "list index out of range")
  | q :: _ => return q.2

/-- `_past_of_parents`. -/
def pastOfParents (d : BlockDAG η) (parents : List η) : Except PyError (Finset η) :=
  parents.foldlM (fun (past : Finset η) parent => do
    let above ← d.ancestors parent
    return insert parent past ∪ above) ∅

/-- A set sorted by blue score, timestamp, hash: the order in which merge candidates are
tried, and of `topological_order`. -/
def sortedByScore (d : BlockDAG η) (metadata : Table η (GhostdagData η)) (s : Finset η) :
    Except PyError (List η) := do
  let keyed ← (ascending s).mapM fun h => do
    let data ← item metadata h
    let block ← item d.blocks h
    return ((data.blueScore, block.timestampMs, h) : ℕ × ℕ × η)
  return (sortBy (fun q => (toLex (q.1, toLex (q.2.1, q.2.2)) : ℕ ×ₗ ℕ ×ₗ η)) keyed).map (·.2.2)

/-- `_saturating_blue_work`, with the running total. -/
def saturatingBlueWork : ℕ → List ℕ → ℕ
  | total, [] => total
  | total, value :: values =>
    if u64Max ≤ total + value then u64Max else saturatingBlueWork (total + value) values

/-- Add a merge candidate to the blues if its anticone among them is at most `k`. -/
def tryBlue (d : BlockDAG η) (k : ℤ) (currentBlues : Finset η) (candidate : η) :
    Except PyError (Finset η) := do
  let size ← d.anticoneSize candidate currentBlues
  return if (size : ℤ) ≤ k then insert candidate currentBlues else currentBlues

/-- The metadata of one fruit, from the metadata of the fruits before it. -/
def dataOf (d : BlockDAG η) (k : ℤ) (metadata : Table η (GhostdagData η)) (h : η) :
    Except PyError (GhostdagData η) := do
  let block ← item d.blocks h
  if block.parents = [] then
    return { selectedParent := none, blues := {h}, reds := ∅, blueScore := 1,
             accumulatedBlueWork := block.work }
  let selectedParent ← selectParent block.parents metadata
  let selectedData ← item metadata selectedParent
  let selectedPast := insert selectedParent (← d.ancestors selectedParent)
  let mergePast ← d.pastOfParents (block.parents.filter (· ≠ selectedParent))
  let candidates ← d.sortedByScore metadata (mergePast \ selectedPast)
  let currentBlues ← candidates.foldlM (d.tryBlue k) selectedData.blues
  let blues := insert h currentBlues
  let past ← d.pastOfParents block.parents
  let works ← (ascending blues).mapM fun b => do
    let block ← item d.blocks b
    return block.work
  return { selectedParent := some selectedParent, blues, reds := past \ blues, blueScore := blues.card,
           accumulatedBlueWork := saturatingBlueWork 0 works }

/-- `_require_k`. -/
def requireK (k : ℤ) : Except PyError Unit := Exn.ensure (0 ≤ k) (.valueError "k must be non-negative")

/-- The loop of `ghostdag_metadata`. -/
def computeMetadata (d : BlockDAG η) (k : ℤ) : Except PyError (Table η (GhostdagData η)) := do
  let order ← d.topologicalHashes
  order.foldlM (fun metadata h => do
    let data ← d.dataOf k metadata h
    return metadata.insert h data) ∅

/-- `ghostdag_metadata`: the metadata of every known fruit, and the DAG with its cache
filled. -/
def ghostdagMetadata (d : BlockDAG η) (k : ℤ) :
    Except PyError (Table η (GhostdagData η) × BlockDAG η) := do
  requireK k
  match d.metadataCache[k]? with
  | some cached => if cached.size = d.blocks.size then return (cached, d)
  | none => pure ()
  let metadata ← d.computeMetadata k
  return (metadata, { d with metadataCache := d.metadataCache.insert k metadata })

/-- `ghostdag_data`: the metadata of one fruit. -/
def ghostdagData (d : BlockDAG η) (h : η) (k : ℤ) : Except PyError (GhostdagData η × BlockDAG η) := do
  let _ ← d.getBlock h
  let (metadata, d') ← d.ghostdagMetadata k
  let data ← item metadata h
  return (data, d')

/-- `topological_order`: the tip and its ancestors by blue score, timestamp, then hash. -/
def topologicalOrder (d : BlockDAG η) (tip : η) (k : ℤ) : Except PyError (List η × BlockDAG η) := do
  let (metadata, d') ← d.ghostdagMetadata k
  let reachable := insert tip (← d'.ancestors tip)
  let order ← d'.sortedByScore metadata reachable
  return (order, d')

/-- The DAGs a caller can hold: built from the empty one by successful `add_block` calls,
with metadata queries (which fill the cache) anywhere in between. -/
inductive Built : BlockDAG η → Prop where
  | empty : Built BlockDAG.empty
  | add {d d' : BlockDAG η} {block : FruitBlock η} : Built d → d.addBlock block = .ok d' → Built d'
  | query {d d' : BlockDAG η} {k : ℤ} {metadata : Table η (GhostdagData η)} :
      Built d → d.ghostdagMetadata k = .ok (metadata, d') → Built d'

end BlockDAG

end TensorPow
