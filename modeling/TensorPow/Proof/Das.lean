import TensorPow.Proof.BlockBinding
import TensorPow.Spec.Das

/-!
# Sample proofs are exactly the honest ones

* `climb_iff`: a list of siblings leads from a node to the root of its layers exactly if the
  node and the siblings are those of the layers.
* `sampleLoop_returns`: sampling returns if the first attempts do not collide.
* `verifySample_exact`: a sample is accepted exactly if its proof is the one that
  `create_sample_proof` makes.
-/

namespace TensorPow

open Wire

namespace Das

variable {C : Crypto} {rs : ℕ → Bytes → Bool}

/-! ## Layers -/

/-- A node of the next layer is the hash of the two nodes below it. -/
theorem get_nextLevel (level : ℕ) : ∀ (start : ℕ) (nodes : List Hash) (i : ℕ) (left : Hash),
    nodes[2 * i]? = some left →
      (merkleNextLevel C domainDasSample level start nodes)[i]? =
        some (merkleNode C domainDasSample level (start + i) left
          (nodes[2 * i + 1]?.getD (merkleEmpty C domainDasSample level (start + i)))) ∧
      nodeInput domainDasSample level (start + i) left
          (nodes[2 * i + 1]?.getD (merkleEmpty C domainDasSample level (start + i))) ∈
        levelInputs C domainDasSample level start nodes
  | start, [], i, left, h => by simp at h
  | start, [a], i, left, h => by
    cases i with
    | zero =>
      cases h
      exact ⟨rfl, by simp [levelInputs]⟩
    | succ i => simp at h
  | start, a :: b :: rest, i, left, h => by
    cases i with
    | zero =>
      cases h
      exact ⟨rfl, by simp [levelInputs]⟩
    | succ i =>
      -- two nodes further is one node further above
      have hshift : 2 * (i + 1) = 2 * i + 1 + 1 := by omega
      rw [hshift, List.getElem?_cons_succ, List.getElem?_cons_succ] at h
      obtain ⟨hget, hmem⟩ := get_nextLevel level (start + 1) rest i left h
      have hindex : start + 1 + i = start + (i + 1) := by omega
      rw [hindex] at hget hmem
      rw [hshift, List.getElem?_cons_succ, List.getElem?_cons_succ]
      refine ⟨?_, ?_⟩
      · rw [merkleNextLevel, List.getElem?_cons_succ]
        exact hget
      · rw [levelInputs]
        exact List.mem_cons_of_mem _ hmem

/-- The layers start with the given nodes. -/
theorem head_layersFrom (fuel level : ℕ) (nodes : List Hash) :
    ∃ layers, layersFrom C fuel level nodes = nodes :: layers := by
  cases fuel with
  | zero => exact ⟨[], rfl⟩
  | succ fuel =>
    unfold layersFrom
    split
    · exact ⟨[], rfl⟩
    · exact ⟨_, rfl⟩

section Step

variable {fuel level : ℕ} {nodes : List Hash}

/-- Two or more nodes have a layer above them. -/
theorem layersFrom_step (h : 2 ≤ nodes.length) : layersFrom C (fuel + 1) level nodes =
    nodes :: layersFrom C fuel (level + 1) (merkleNextLevel C domainDasSample level 0 nodes) := by
  conv_lhs => unfold layersFrom
  rw [if_neg (by omega)]

theorem rootOfLayers_step (h : 2 ≤ nodes.length) : rootOfLayers (layersFrom C (fuel + 1) level nodes) =
    rootOfLayers (layersFrom C fuel (level + 1) (merkleNextLevel C domainDasSample level 0 nodes)) := by
  obtain ⟨layers, hlayers⟩ := head_layersFrom (C := C) fuel (level + 1) (merkleNextLevel C domainDasSample level 0 nodes)
  rw [layersFrom_step h, hlayers]
  rfl

theorem siblingsFrom_step (h : 2 ≤ nodes.length) (position : ℕ) :
    siblingsFrom C level (layersFrom C (fuel + 1) level nodes) position =
      siblingAt C level nodes position ::
        siblingsFrom C (level + 1) (layersFrom C fuel (level + 1) (merkleNextLevel C domainDasSample level 0 nodes))
          (position / 2) := by
  obtain ⟨layers, hlayers⟩ := head_layersFrom (C := C) fuel (level + 1) (merkleNextLevel C domainDasSample level 0 nodes)
  rw [layersFrom_step h, hlayers]
  rfl

end Step

/-! ## Climbing -/

/-- What the verifier hashes in one round. -/
def pathInput (s : MerkleSibling) (level position : ℕ) (node : Hash) : Bytes :=
  if s.isLeft then nodeInput domainDasSample level (position / 2) s.digest node
  else nodeInput domainDasSample level (position / 2) node s.digest

/-- What the verifier hashes on its way up. -/
def pathInputs (C : Crypto) : List MerkleSibling → ℕ → ℕ → Hash → List Bytes
  | [], _, _, _ => []
  | s :: siblings, level, position, node =>
    pathInput s level position node ::
      pathInputs C siblings (level + 1) (position / 2) (C.hashBytes (pathInput s level position node))

/-- One round of the verifier's loop: the node above, unless it returns early. -/
def nodeAbove (C : Crypto) (s : MerkleSibling) (level position width : ℕ) (node : Hash) : Option Hash :=
  if s.isLeft then
    if position % 2 = 0 then none else some (merkleNode C domainDasSample level (position / 2) s.digest node)
  else if position % 2 ≠ 0 then none
  else if width ≤ position + 1 ∧ s.digest ≠ merkleEmpty C domainDasSample level (position / 2) then none
  else some (merkleNode C domainDasSample level (position / 2) node s.digest)

theorem climbSiblings_cons (s : MerkleSibling) (siblings : List MerkleSibling) (level position width : ℕ) (node : Hash) :
    climbSiblings C (s :: siblings) level position width node =
      (nodeAbove C s level position width node).bind
        (climbSiblings C siblings (level + 1) (position / 2) ((width + 1) / 2)) := by
  unfold nodeAbove
  rw [climbSiblings]
  split
  · split <;> rfl
  · split
    · rfl
    · split <;> rfl

/-- The node above is the hash of what the verifier reads. -/
theorem nodeAbove_hash {s : MerkleSibling} {level position width : ℕ} {node above : Hash}
    (h : nodeAbove C s level position width node = some above) :
    above = C.hashBytes (pathInput s level position node) := by
  unfold nodeAbove at h
  unfold pathInput
  split at h
  · rename_i hleft
    rw [if_pos hleft]
    split at h
    · cases h
    · cases h
      rfl
  · rename_i hleft
    rw [if_neg hleft]
    split at h
    · cases h
    · split at h
      · cases h
      · cases h
        rfl

theorem siblingAt_left {level position : ℕ} {nodes : List Hash} (h : position % 2 = 0) :
    siblingAt C level nodes position =
      ⟨false, nodes[position + 1]?.getD (merkleEmpty C domainDasSample level (position / 2))⟩ := if_pos h

theorem siblingAt_right {level position : ℕ} {nodes : List Hash} (h : ¬position % 2 = 0) :
    siblingAt C level nodes position = ⟨true, nodes.getD (position - 1) genesisParentHash⟩ := if_neg h

section Climb

variable {B : Set Bytes} {level : ℕ} {nodes : List Hash}

/-- **One round goes right exactly if** the node and its sibling are those of the layer. -/
theorem nodeAbove_iff (hinj : Set.InjOn C.hashBytes B)
    (hlevel : ∀ b ∈ levelInputs C domainDasSample level 0 nodes, b ∈ B) {position : ℕ}
    (hpos : position < nodes.length) {s : MerkleSibling} {node : Hash}
    (hinput : pathInput s level position node ∈ B) :
    (∃ above, nodeAbove C s level position nodes.length node = some above ∧
        (merkleNextLevel C domainDasSample level 0 nodes)[position / 2]? = some above) ↔
      nodes[position]? = some node ∧ s = siblingAt C level nodes position := by
  obtain ⟨isLeft, digest⟩ := s
  unfold pathInput at hinput
  rcases Nat.even_or_odd' position with ⟨i, rfl | rfl⟩
  · -- a left node: its sibling may be missing
    have hhalf : 2 * i / 2 = i := by omega
    have heven : 2 * i % 2 = 0 := by omega
    have hleft := List.getElem?_eq_getElem hpos
    obtain ⟨hget, hmem⟩ := get_nextLevel (C := C) level 0 nodes i _ hleft
    rw [Nat.zero_add] at hget hmem
    rw [siblingAt_left heven, hleft]
    unfold nodeAbove
    rw [hhalf] at hinput ⊢
    rw [hget]
    cases isLeft with
    | true => simp [heven]
    | false =>
      simp only [Bool.false_eq_true, if_false] at hinput ⊢
      rw [if_neg (not_not.2 heven)]
      constructor
      · rintro ⟨above, habove, hsame⟩
        split at habove
        · cases habove
        · cases habove
          have heq := hinj (hlevel _ hmem) hinput (Option.some.inj hsame)
          obtain ⟨-, hnode, hdigest⟩ := nodeInput_inj heq
          exact ⟨by rw [hnode], by rw [hdigest]⟩
      · rintro ⟨hnode, hs⟩
        cases hnode
        obtain ⟨-, rfl⟩ := MerkleSibling.mk.inj hs
        refine ⟨_, if_neg ?_, rfl⟩
        rintro ⟨hwidth, hne⟩
        rw [List.getElem?_eq_none hwidth] at hne
        exact hne rfl
  · -- a right node: its sibling is the node before it
    have hhalf : (2 * i + 1) / 2 = i := by omega
    have hodd : ¬(2 * i + 1) % 2 = 0 := by omega
    have hlt : 2 * i < nodes.length := by omega
    have hleft := List.getElem?_eq_getElem hlt
    have hright := List.getElem?_eq_getElem hpos
    obtain ⟨hget, hmem⟩ := get_nextLevel (C := C) level 0 nodes i _ hleft
    rw [Nat.zero_add, hright, Option.getD_some] at hget hmem
    rw [siblingAt_right hodd, hright]
    unfold nodeAbove
    rw [hhalf] at hinput ⊢
    have hsibling : nodes.getD (2 * i) genesisParentHash = nodes[2 * i] := by
      rw [List.getD_eq_getElem?_getD, hleft, Option.getD_some]
    rw [hget, Nat.add_sub_cancel, hsibling]
    cases isLeft with
    | false => simp
    | true =>
      simp only [if_true] at hinput ⊢
      rw [if_neg hodd]
      constructor
      · rintro ⟨above, habove, hsame⟩
        cases habove
        have heq := hinj (hlevel _ hmem) hinput (Option.some.inj hsame)
        obtain ⟨-, hdigest, hnode⟩ := nodeInput_inj heq
        exact ⟨by rw [hnode], by rw [hdigest]⟩
      · rintro ⟨hnode, hs⟩
        cases hnode
        obtain ⟨-, rfl⟩ := MerkleSibling.mk.inj hs
        exact ⟨_, rfl, rfl⟩

/-- **The siblings lead to the root exactly if** the node and the siblings are those of the
layers. -/
theorem climb_iff (hinj : Set.InjOn C.hashBytes B) {fuel : ℕ} : ∀ {level : ℕ} {nodes : List Hash},
    nodes ≠ [] → nodes.length ≤ fuel → (∀ b ∈ climbInputs C domainDasSample fuel level nodes, b ∈ B) →
    ∀ {position : ℕ} {siblings : List MerkleSibling} {node : Hash}, position < nodes.length →
    siblings.length = merkleDepth fuel nodes.length → (∀ b ∈ pathInputs C siblings level position node, b ∈ B) →
    (climbSiblings C siblings level position nodes.length node =
        some (0, 1, rootOfLayers (layersFrom C fuel level nodes)) ↔
      nodes[position]? = some node ∧ siblings = siblingsFrom C level (layersFrom C fuel level nodes) position) := by
  induction fuel with
  | zero =>
    intro level nodes hne hfuel
    exact absurd (List.eq_nil_of_length_eq_zero (by omega)) hne
  | succ fuel ih =>
    intro level nodes hne hfuel hclimb position siblings node hpos hdepth hpath
    by_cases htwo : 2 ≤ nodes.length
    · have hnextLen := length_merkleNextLevel C domainDasSample level 0 nodes
      have hstep : merkleDepth (fuel + 1) nodes.length = merkleDepth fuel ((nodes.length + 1) / 2) + 1 := by
        rw [merkleDepth, if_neg (by omega), Nat.add_comm]
      rw [hstep] at hdepth
      obtain ⟨s, rest, rfl⟩ := List.exists_cons_of_length_eq_add_one hdepth
      rw [List.length_cons, Nat.add_right_cancel_iff, ← hnextLen] at hdepth
      rw [(merkleClimb_step C domainDasSample fuel level htwo).2] at hclimb
      have hlevel : ∀ b ∈ levelInputs C domainDasSample level 0 nodes, b ∈ B :=
        fun b hb => hclimb b (List.mem_append_left _ hb)
      have hhigher := fun b hb => hclimb b (List.mem_append_right _ hb)
      have hnextNe : merkleNextLevel C domainDasSample level 0 nodes ≠ [] := by
        apply List.ne_nil_of_length_pos
        omega
      have hround := nodeAbove_iff hinj hlevel hpos (hpath _ List.mem_cons_self)
      -- the induction hypothesis, for the node that one round comes to
      have hrest : ∀ above, nodeAbove C s level position nodes.length node = some above →
          (climbSiblings C rest (level + 1) (position / 2) ((nodes.length + 1) / 2) above =
              some (0, 1, rootOfLayers (layersFrom C (fuel + 1) level nodes)) ↔
            (merkleNextLevel C domainDasSample level 0 nodes)[position / 2]? = some above ∧
              rest = siblingsFrom C (level + 1)
                (layersFrom C fuel (level + 1) (merkleNextLevel C domainDasSample level 0 nodes)) (position / 2)) := by
        intro above habove
        rw [rootOfLayers_step htwo, ← hnextLen]
        refine ih hnextNe (by omega) hhigher (by omega) hdepth fun b hb => hpath b ?_
        rw [nodeAbove_hash habove] at hb
        exact List.mem_cons_of_mem _ hb
      rw [climbSiblings_cons, siblingsFrom_step htwo, Option.bind_eq_some_iff, List.cons.injEq]
      constructor
      · rintro ⟨above, habove, hclimbed⟩
        obtain ⟨hnext, hsame⟩ := (hrest above habove).1 hclimbed
        obtain ⟨hnode, hs⟩ := hround.1 ⟨above, habove, hnext⟩
        exact ⟨hnode, hs, hsame⟩
      · rintro ⟨hnode, hs, hsame⟩
        obtain ⟨above, habove, hnext⟩ := hround.2 ⟨hnode, hs⟩
        exact ⟨above, habove, (hrest above habove).2 ⟨hnext, hsame⟩⟩
    · -- one node is its own root
      have hlen : nodes.length = 1 := by
        have := List.length_pos_of_ne_nil hne
        omega
      obtain ⟨x, rfl⟩ := List.length_eq_one_iff.1 hlen
      have hzero : position = 0 := by
        rw [List.length_singleton] at hpos
        omega
      have hnil : siblings = [] := List.eq_nil_of_length_eq_zero hdepth
      subst hzero hnil
      have hlayers : layersFrom C (fuel + 1) level [x] = [[x]] := rfl
      rw [hlayers]
      show some (0, 1, node) = some (0, 1, x) ↔ some x = some node ∧ [] = []
      simp [eq_comm]

theorem length_siblingsFrom {fuel : ℕ} : ∀ {level : ℕ} {nodes : List Hash} (position : ℕ), nodes.length ≤ fuel →
    (siblingsFrom C level (layersFrom C fuel level nodes) position).length = merkleDepth fuel nodes.length := by
  induction fuel with
  | zero =>
    intro level nodes position hfuel
    rfl
  | succ fuel ih =>
    intro level nodes position hfuel
    by_cases htwo : 2 ≤ nodes.length
    · have hnextLen := length_merkleNextLevel C domainDasSample level 0 nodes
      rw [siblingsFrom_step htwo, List.length_cons, ih _ (by omega), hnextLen, merkleDepth, if_neg (by omega),
        Nat.add_comm]
    · have hlayers : layersFrom C (fuel + 1) level nodes = [nodes] := by
        conv_lhs => unfold layersFrom
        rw [if_pos (by omega)]
      rw [hlayers, merkleDepth, if_pos (by omega)]
      rfl

end Climb

/-! ## Sampling -/

/-- What one attempt at a sample hashes. -/
def attemptInput (fruitHash : Hash) (sampleIndex attempt : ℕ) : Bytes :=
  domainDasSample :: sampleData fruitHash sampleIndex attempt

theorem attemptInput_inj {fruitHash : Hash} {sampleIndex a b : ℕ} (ha : a ≤ u32Max) (hb : b ≤ u32Max)
    (h : attemptInput fruitHash sampleIndex a = attemptInput fruitHash sampleIndex b) : a = b := by
  have hsuffix := List.append_cancel_left (List.cons.inj h).2
  by_cases ha0 : a = 0
  · by_cases hb0 : b = 0
    · rw [ha0, hb0]
    · rw [if_pos ha0, if_neg hb0] at hsuffix
      exact absurd (congrArg List.length hsuffix) (by simp)
  · by_cases hb0 : b = 0
    · rw [if_neg ha0, if_pos hb0] at hsuffix
      exact absurd (congrArg List.length hsuffix) (by simp)
    · rw [if_neg ha0, if_neg hb0] at hsuffix
      exact le_inj (lt_of_le_u32 ha) (lt_of_le_u32 hb) hsuffix

/-- Attempts that do not collide are not all rejected: there are fewer values to reject than
cells. -/
theorem exists_accepted {fruitHash : Hash} {sampleIndex cellCount : ℕ} (hpos : 0 < cellCount)
    (hle : cellCount ≤ u32Max)
    (hinj : Set.InjOn C.hashBytes {b | ∃ a < cellCount, b = attemptInput fruitHash sampleIndex a}) :
    ∃ a < cellCount, sampleValue C fruitHash sampleIndex a < sampleLimit cellCount := by
  by_contra hnone
  push Not at hnone
  have hmod : 2 ^ 256 % cellCount < cellCount := Nat.mod_lt _ hpos
  have hmodle : 2 ^ 256 % cellCount ≤ 2 ^ 256 := Nat.mod_le _ _
  have hmaps : ∀ a ∈ Finset.range cellCount,
      sampleValue C fruitHash sampleIndex a - sampleLimit cellCount ∈ Finset.range (2 ^ 256 % cellCount) := by
    intro a ha
    have hlow := hnone a (Finset.mem_range.1 ha)
    have hhigh : sampleValue C fruitHash sampleIndex a < 256 ^ 32 := by
      have h := ofLe_lt (C.domainHash domainDasSample (sampleData fruitHash sampleIndex a)).bytes
      rw [FixedBytes.length_bytes] at h
      exact h
    rw [Finset.mem_range]
    unfold sampleLimit at hlow ⊢
    omega
  obtain ⟨a, ha, b, hb, hne, heq⟩ := Finset.exists_ne_map_eq_of_card_lt_of_maps_to (by simpa using hmod) hmaps
  rw [Finset.mem_range] at ha hb
  have hla := hnone a ha
  have hlb := hnone b hb
  have hvalue : sampleValue C fruitHash sampleIndex a = sampleValue C fruitHash sampleIndex b := by
    omega
  have hinputs := hinj ⟨a, ha, rfl⟩ ⟨b, hb, rfl⟩ (FixedBytes.toNat_inj hvalue)
  exact hne (attemptInput_inj (by omega) (by omega) hinputs)

/-- The loop returns if an attempt that is still to be made is accepted. -/
theorem sampleLoop_returns {fruitHash : Hash} {sampleIndex cellCount a : ℕ} (hpos : 0 < cellCount)
    (ha : a ≤ u32Max) (haccept : sampleValue C fruitHash sampleIndex a < sampleLimit cellCount) :
    ∀ {left : ℕ}, left ≤ u32Max + 1 → u32Max + 1 - left ≤ a →
      ∃ offset < cellCount, sampleLoop C fruitHash sampleIndex cellCount left = .ok offset := by
  intro left
  induction left with
  | zero =>
    intro _ hleft
    omega
  | succ left ih =>
    intro hle hleft
    by_cases hnow : sampleValue C fruitHash sampleIndex (u32Max - left) < sampleLimit cellCount
    · exact ⟨_, Nat.mod_lt _ hpos, if_pos hnow⟩
    · have hlater : a ≠ u32Max - left := by
        rintro rfl
        exact hnow haccept
      obtain ⟨offset, hlt, hloop⟩ := ih (by omega) (by omega)
      refine ⟨offset, hlt, ?_⟩
      rw [← hloop]
      exact if_neg hnow

/-! ## Encodings -/

namespace Encoding

variable (E : Encoding C rs)

/-- The side of the grid. -/
def side : ℕ := E.commitment.extendedSide

/-- The records of the cells. -/
def records : List Bytes := cellRecords E.cells E.side

/-- The layers over the records. -/
def layers : List (List Hash) := layersFrom C E.records.length 0 (leavesOf C E.records)

/-- What the checks of an encoding come to. -/
structure Facts : Prop where
  length_cells : E.cells.length = E.side * E.side
  side_pos : 0 < E.side
  cells_le : E.side * E.side ≤ u32Max
  side_le : E.side ≤ u32Max
  root : rootOfLayers E.layers = E.commitment.cellRoot
  rows : ∀ row < E.side, isValidRsCodeword rs (rowOf E.cells E.side row) E.commitment.dataSide = true
  columns : ∀ column < E.side, isValidRsCodeword rs (columnOf E.cells E.side column) E.commitment.dataSide = true

theorem facts : E.Facts := by
  have hc := E.commitment.valid
  simp only [CommitmentFields.postInit, requirePositiveU32, requireU32, Exn.bind_ok, Exn.ensure_ok] at hc
  obtain ⟨_, -, _, ⟨_, -, hdata⟩, _, ⟨_, hle, hpos⟩, _, hside, -⟩ := hc
  have hv := E.valid
  simp only [EncodingFields.postInit, Exn.bind_ok, Exn.ensure_ok] at hv
  obtain ⟨_, hlen, layers, hlayers, _, hroot, hgrid⟩ := hv
  simp only [orderedMerkleLayers, Exn.bind_ok, Exn.ensure_ok, Exn.pure_ok] at hlayers
  obtain ⟨_, -, _, -, rfl⟩ := hlayers
  simp only [gridHasValidReedSolomon, Bool.and_eq_true, List.all_eq_true, List.mem_range, decide_eq_true_iff,
    ← hside] at hgrid
  have hvalid := hgrid.1.2 0 (by omega)
  unfold isValidRsCodeword at hvalid
  rw [Bool.and_eq_true, decide_eq_true_iff] at hvalid
  have hmax := hvalid.1.2.2
  -- the codec bounds the side, so the grid is small
  have hsmall : E.commitment.extendedSide ≤ 254 := by
    rw [hside]
    unfold maxDataSide rsExtensionFactor at hmax
    unfold rsExtensionFactor
    omega
  have hcells : E.commitment.extendedSide * E.commitment.extendedSide ≤ 254 * 254 := Nat.mul_le_mul hsmall hsmall
  refine ⟨hlen, by unfold side; omega, ?_, hle, hroot, hgrid.1.2, hgrid.2⟩
  unfold side u32Max
  omega

theorem length_records : E.records.length = E.side * E.side := by
  unfold records cellRecords
  rw [List.length_map, List.length_zipIdx, E.facts.length_cells]

theorem length_leaves : (leavesOf C E.records).length = E.side * E.side := by
  unfold leavesOf
  rw [List.length_map, List.length_zipIdx, E.length_records]

theorem index_lt {row column : ℕ} (hrow : row < E.side) (hcolumn : column < E.side) :
    row * E.side + column < E.side * E.side :=
  calc row * E.side + column < row * E.side + E.side := by omega
    _ = (row + 1) * E.side := by ring
    _ ≤ E.side * E.side := Nat.mul_le_mul_right _ hrow

/-- The leaf of a cell. -/
theorem get_leaf {row column : ℕ} (hrow : row < E.side) (hcolumn : column < E.side) :
    (leavesOf C E.records)[row * E.side + column]? =
      some (merkleLeaf C domainDasSample (row * E.side + column)
        (cellRecord row column (cellAt E.cells (row * E.side + column)))) ∧
    leafInput domainDasSample
        (cellRecord row column (cellAt E.cells (row * E.side + column)), row * E.side + column) ∈
      E.records.zipIdx.map (leafInput domainDasSample) := by
  have hindex := E.index_lt hrow hcolumn
  have hlt : row * E.side + column < E.cells.length := by rw [E.facts.length_cells]; exact hindex
  have hdiv : (row * E.side + column) / E.side = row := by
    rw [Nat.mul_comm, Nat.mul_add_div E.facts.side_pos, Nat.div_eq_of_lt hcolumn, Nat.add_zero]
  have hmod : (row * E.side + column) % E.side = column := by
    rw [Nat.mul_comm, Nat.mul_add_mod, Nat.mod_eq_of_lt hcolumn]
  have hcell : cellAt E.cells (row * E.side + column) = E.cells[row * E.side + column] := by
    unfold cellAt
    rw [List.getD_eq_getElem?_getD, List.getElem?_eq_getElem hlt, Option.getD_some]
  have hrecord : E.records[row * E.side + column]? =
      some (cellRecord row column (cellAt E.cells (row * E.side + column))) := by
    unfold records cellRecords
    rw [List.getElem?_map, List.getElem?_zipIdx, List.getElem?_eq_getElem hlt, hcell]
    simp [hdiv, hmod]
  refine ⟨?_, ?_⟩
  · unfold leavesOf
    rw [List.getElem?_map, List.getElem?_zipIdx, hrecord]
    simp
  · refine List.mem_map.2 ⟨_, ?_, rfl⟩
    rw [List.mem_zipIdx_iff_getElem?]
    exact hrecord

/-- The honest Merkle proof of an index. -/
def proofAt (index : ℕ) : MerkleProofFields := ⟨index, E.side * E.side, siblingsFrom C 0 E.layers index⟩

theorem proofAt_valid {index : ℕ} (h : index < E.side * E.side) : (E.proofAt index).postInit = .ok () := by
  have hle := E.facts.cells_le
  have hdepth : (E.proofAt index).siblings.length = merkleDepth (E.side * E.side) (E.side * E.side) := by
    have hlen : (siblingsFrom C 0 (layersFrom C (E.side * E.side) 0 (leavesOf C E.records)) index).length =
        merkleDepth (E.side * E.side) (leavesOf C E.records).length :=
      length_siblingsFrom index (le_of_eq E.length_leaves)
    rw [E.length_leaves] at hlen
    unfold proofAt layers
    rw [E.length_records]
    exact hlen
  unfold MerkleProofFields.postInit requirePositiveU32 requireU32
  rw [Exn.ensure_of _ (show (E.proofAt index).leafIndex ≤ u32Max by unfold proofAt; dsimp only; omega), Exn.ok_bind,
    Exn.ensure_of _ (show (E.proofAt index).leafCount ≤ u32Max from hle), Exn.ok_bind,
    Exn.ensure_of _ (show (E.proofAt index).leafCount ≠ 0 by unfold proofAt; dsimp only; omega), Exn.ok_bind,
    Exn.ensure_of _ (show (E.proofAt index).leafIndex < (E.proofAt index).leafCount from h), Exn.ok_bind]
  exact Exn.ensure_of _ hdepth

/-- What committing to the cells hashes. -/
def inputs : List Bytes :=
  E.records.zipIdx.map (leafInput domainDasSample) ++
    climbInputs C domainDasSample E.records.length 0 (leavesOf C E.records)

end Encoding

theorem MerkleProof.make_ok {f : MerkleProofFields} {p : MerkleProof} :
    MerkleProof.make f = .ok p ↔ p.toMerkleProofFields = f := by
  unfold MerkleProof.make
  split
  · rw [Except.ok.injEq]
    refine ⟨fun h => h ▸ rfl, fun h => ?_⟩
    cases p
    cases h
    rfl
  · rename_i e he
    refine ⟨fun h => (by cases h), fun h => ?_⟩
    rw [← h, p.valid] at he
    cases he

/-! ## Cells -/

theorem leafInput_inj {a b : Bytes} {i : ℕ} (h : leafInput domainDasSample (a, i) = leafInput domainDasSample (b, i)) :
    a = b := (List.append_inj (List.cons.inj (List.cons.inj h).2).2 (by simp)).2

theorem cellRecord_inj {row column : ℕ} {a b : Cell} (h : cellRecord row column a = cellRecord row column b) :
    a = b := FixedBytes.bytes_inj.1 (List.append_cancel_left h)

theorem cellIndex_of {side row column : ℕ} (hside : side ≤ u32Max) (hcells : side * side ≤ u32Max)
    (hrow : row < side) (hcolumn : column < side) : cellIndex side row column = .ok (row * side + column) := by
  have hindex : row * side + column ≤ u32Max := by
    have hlt : row * side + side ≤ side * side := by
      calc row * side + side = (row + 1) * side := by ring
        _ ≤ side * side := Nat.mul_le_mul_right _ hrow
    omega
  unfold cellIndex requirePositiveU32 requireU32
  rw [Exn.ensure_of _ hside, Exn.ok_bind, Exn.ensure_of _ (by omega), Exn.ok_bind, Exn.ensure_of _ ⟨hrow, hcolumn⟩,
    Exn.ok_bind, Exn.ensure_of _ hindex]
  rfl

/-- What checking one cell hashes. -/
def cellInputs (C : Crypto) (row column : ℕ) (cell : Cell) (proof : MerkleProof) : List Bytes :=
  leafInput domainDasSample (cellRecord row column cell, proof.leafIndex) ::
    pathInputs C proof.siblings 0 proof.leafIndex
      (merkleLeaf C domainDasSample proof.leafIndex (cellRecord row column cell))

section Verify

variable {E : Encoding C rs} {B : Set Bytes}

/-- **A cell is accepted exactly if** it is the encoding's and its proof is the honest one. -/
theorem verifyCellProof_eq (hinj : Set.InjOn C.hashBytes B) (hE : ∀ b ∈ E.inputs, b ∈ B) {row column : ℕ}
    (hrow : row < E.side) (hcolumn : column < E.side) {cell : Cell} {proof : MerkleProof}
    (hcell : ∀ b ∈ cellInputs C row column cell proof, b ∈ B) :
    verifyCellProof C E.commitment.cellRoot E.side row column cell proof =
      .ok (decide (cell = cellAt E.cells (row * E.side + column) ∧
        proof.toMerkleProofFields = E.proofAt (row * E.side + column))) := by
  obtain ⟨hleaf, hleafInput⟩ := E.get_leaf hrow hcolumn
  have hvalid := proof.valid
  simp only [MerkleProofFields.postInit, requirePositiveU32, requireU32, Exn.bind_ok, Exn.ensure_ok] at hvalid
  obtain ⟨_, -, _, -, _, hlt, hdepth⟩ := hvalid
  unfold verifyCellProof
  rw [cellIndex_of E.facts.side_le E.facts.cells_le hrow hcolumn, Exn.ok_bind]
  split
  · rename_i hne
    rw [decide_eq_false]
    · rfl
    · rintro ⟨-, hproof⟩
      have hi : proof.leafIndex = row * E.side + column := congrArg MerkleProofFields.leafIndex hproof
      have hc : proof.leafCount = E.side * E.side := congrArg MerkleProofFields.leafCount hproof
      rcases hne with hne | hne
      · exact hne hi
      · exact hne hc
  · rename_i hsame
    rw [not_or, not_not, not_not] at hsame
    obtain ⟨hindex, hcount⟩ := hsame
    have hleavesNe : leavesOf C E.records ≠ [] := by
      apply List.ne_nil_of_length_pos
      rw [E.length_leaves]
      exact Nat.mul_pos E.facts.side_pos E.facts.side_pos
    have hlen := E.length_leaves
    have hpos : proof.leafIndex < (leavesOf C E.records).length := by
      rw [hlen, ← hcount]
      exact hlt
    have hsiblings : proof.siblings.length = merkleDepth E.records.length (leavesOf C E.records).length := by
      rw [E.length_records, hlen, ← hcount]
      exact hdepth
    -- index and count are right, so the climb is over the encoding's own layers
    have hclimb := climb_iff hinj hleavesNe (by rw [hlen, E.length_records])
      (fun b hb => hE b (List.mem_append_right _ hb)) hpos hsiblings
      (fun b hb => hcell b (List.mem_cons_of_mem _ hb))
    have hroot : rootOfLayers (layersFrom C E.records.length 0 (leavesOf C E.records)) = E.commitment.cellRoot :=
      E.facts.root
    rw [hroot, hlen, ← hcount] at hclimb
    show Except.ok (decide _) = _
    congr 1
    rw [decide_eq_decide, hclimb, hindex, hleaf, Option.some.injEq]
    constructor
    · rintro ⟨hhash, hsiblings⟩
      have hin := hcell _ List.mem_cons_self
      rw [hindex] at hin
      have hinput := hinj (hE _ (List.mem_append_left _ hleafInput)) hin hhash
      refine ⟨(cellRecord_inj (leafInput_inj hinput)).symm, ?_⟩
      have hfields : proof.toMerkleProofFields = ⟨proof.leafIndex, proof.leafCount, proof.siblings⟩ := rfl
      rw [hfields, hindex, hcount, hsiblings]
      rfl
    · rintro ⟨rfl, hproof⟩
      exact ⟨rfl, congrArg MerkleProofFields.siblings hproof⟩

/-- A loop over cells that all have a verdict accepts exactly if all are accepted. -/
theorem verifyLine_eq (check : ℕ → Cell → MerkleProof → Except PyError Bool) (verdict : ℕ → Cell × MerkleProof → Bool) :
    ∀ {i : ℕ} {l : List (Cell × MerkleProof)},
      (∀ p ∈ l.zipIdx i, check p.2 p.1.1 p.1.2 = .ok (verdict p.2 p.1)) →
      verifyLine check i l = .ok ((l.zipIdx i).all fun p => verdict p.2 p.1)
  | i, [], _ => rfl
  | i, p :: rest, h => by
    rw [List.zipIdx_cons] at h ⊢
    have hhead := h _ List.mem_cons_self
    have htail := verifyLine_eq check verdict fun q hq => h q (List.mem_cons_of_mem _ hq)
    unfold verifyLine
    rw [hhead, Exn.ok_bind, List.all_cons]
    cases verdict i p with
    | true =>
      rw [if_pos rfl, htail]
      rfl
    | false => rfl

theorem MerkleProof.fields_inj {p q : MerkleProof} : p.toMerkleProofFields = q.toMerkleProofFields ↔ p = q := by
  refine ⟨fun h => ?_, fun h => h ▸ rfl⟩
  cases p
  cases q
  cases h
  rfl

/-- A line of cells and proofs is accepted exactly if it is the given one. -/
theorem line_iff {cells : List Cell} {proofs : List MerkleProof} {n : ℕ} (hcells : cells.length = n)
    (hproofs : proofs.length = n) (f : ℕ → Cell) (g : ℕ → MerkleProof) :
    ((cells.zip proofs).zipIdx.all fun p => decide (p.1.1 = f p.2 ∧ p.1.2 = g p.2)) = true ↔
      cells = (List.range n).map f ∧ proofs = (List.range n).map g := by
  rw [List.all_eq_true]
  constructor
  · intro h
    -- what the check says at each index
    have hboth : ∀ i (hi : i < n), cells[i] = f i ∧ proofs[i] = g i := by
      intro i hi
      have hmem : ((cells[i], proofs[i]), i) ∈ (cells.zip proofs).zipIdx := by
        rw [List.mem_zipIdx_iff_getElem?, List.getElem?_zip_eq_some]
        exact ⟨List.getElem?_eq_getElem _, List.getElem?_eq_getElem _⟩
      exact of_decide_eq_true (h _ hmem)
    constructor
    · refine List.ext_getElem (by simpa using hcells) fun i hi _ => ?_
      rw [List.getElem_map, List.getElem_range]
      exact (hboth i (by omega)).1
    · refine List.ext_getElem (by simpa using hproofs) fun i hi _ => ?_
      rw [List.getElem_map, List.getElem_range]
      exact (hboth i (by omega)).2
  · rintro ⟨rfl, rfl⟩ ⟨⟨cell, proof⟩, i⟩ hmem
    rw [List.mem_zipIdx_iff_getElem?, List.getElem?_zip_eq_some, List.getElem?_map, List.getElem?_map] at hmem
    obtain ⟨hcell, hproof⟩ := hmem
    obtain ⟨j, hj, rfl⟩ := Option.map_eq_some_iff.1 hcell
    obtain ⟨k, hk, rfl⟩ := Option.map_eq_some_iff.1 hproof
    have hrange : ∀ {a}, (List.range n)[i]? = some a → a = i := by
      intro a ha
      obtain ⟨hlt, hval⟩ := List.getElem?_eq_some_iff.1 ha
      rw [List.getElem_range] at hval
      exact hval.symm
    have hji : j = i := hrange hj
    have hki : k = i := hrange hk
    rw [decide_eq_true_iff, hji, hki]
    exact ⟨rfl, rfl⟩

end Verify

/-! ## Samples -/

namespace Encoding

variable (E : Encoding C rs)

/-- The honest Merkle proof of an index of the grid. -/
def honest (index : ℕ) : MerkleProof :=
  ⟨E.proofAt (index % (E.side * E.side)),
    E.proofAt_valid (Nat.mod_lt _ (Nat.mul_pos E.facts.side_pos E.facts.side_pos))⟩

theorem honest_fields {index : ℕ} (h : index < E.side * E.side) :
    (E.honest index).toMerkleProofFields = E.proofAt index := by
  show E.proofAt (index % _) = _
  rw [Nat.mod_eq_of_lt h]

/-- The honest sample proof of a cell. -/
def sampleFields (row column : ℕ) : SampleProofFields where
  row := row
  column := column
  rowCells := rowOf E.cells E.side row
  rowProofs := (List.range E.side).map fun j => E.honest (row * E.side + j)
  columnCells := columnOf E.cells E.side column
  columnProofs := (List.range E.side).map fun j => E.honest (j * E.side + column)

theorem sampleFields_valid {row column : ℕ} (hrow : row < E.side) (hcolumn : column < E.side) :
    (E.sampleFields row column).postInit = .ok () := by
  have hpos := E.facts.side_pos
  have hlen : (E.sampleFields row column).rowCells.length = E.side ∧
      (E.sampleFields row column).rowProofs.length = E.side ∧
      (E.sampleFields row column).columnCells.length = E.side ∧
      (E.sampleFields row column).columnProofs.length = E.side := by
    simp [sampleFields, rowOf, columnOf]
  obtain ⟨h₁, h₂, h₃, h₄⟩ := hlen
  unfold SampleProofFields.postInit
  rw [h₁, h₂, h₃, h₄, Exn.ensure_of _ rfl, Exn.ok_bind, Exn.ensure_of _ rfl, Exn.ok_bind,
    Exn.ensure_of _ (by omega), Exn.ok_bind, Exn.ensure_of _ rfl, Exn.ok_bind]
  exact Exn.ensure_of _ ⟨hrow, hcolumn⟩

/-- The honest sample proof of a cell of the grid. -/
def sample (row column : ℕ) (hrow : row < E.side) (hcolumn : column < E.side) : SampleProof :=
  ⟨E.sampleFields row column, E.sampleFields_valid hrow hcolumn⟩

theorem layers_ok : orderedMerkleLayers C (cellRecords E.cells E.commitment.extendedSide) = .ok E.layers := by
  have hpos := Nat.mul_pos E.facts.side_pos E.facts.side_pos
  have hle := E.facts.cells_le
  have hlen : (cellRecords E.cells E.commitment.extendedSide).length = E.side * E.side := E.length_records
  unfold orderedMerkleLayers
  rw [Exn.ensure_of _ (List.ne_nil_of_length_pos (by omega)), Exn.ok_bind, Exn.ensure_of _ (by omega)]
  rfl

/-- The honest proof is the one that is created. -/
theorem create_ok {request : Request}
    (hselect : selectSampleRequest C request.fruitHash E.commitment request.sampleIndex = .ok request)
    (hrow : request.row < E.side) (hcolumn : request.column < E.side) :
    createSampleProof E request = .ok (E.sample request.row request.column hrow hcolumn) := by
  have hindex : ∀ row column, row < E.side → column < E.side →
      cellIndex E.commitment.extendedSide row column = .ok (row * E.side + column) :=
    fun row column hrow hcolumn => cellIndex_of E.facts.side_le E.facts.cells_le hrow hcolumn
  have hcell : ∀ row column, row < E.side → column < E.side →
      E.cell row column = .ok (cellAt E.cells (row * E.side + column)) := by
    intro row column hrow hcolumn
    unfold cell
    rw [hindex row column hrow hcolumn]
    rfl
  have hproof : ∀ row column, row < E.side → column < E.side →
      (do orderedMerkleProofFromLayers C E.layers (← cellIndex E.commitment.extendedSide row column)) =
        .ok (E.honest (row * E.side + column)) := by
    intro row column hrow hcolumn
    have hlt := E.index_lt hrow hcolumn
    obtain ⟨rest, hlayers⟩ := head_layersFrom (C := C) E.records.length 0 (leavesOf C E.records)
    have hcount : (E.layers.headD []).length = E.side * E.side := by
      unfold layers
      rw [hlayers]
      exact E.length_leaves
    have hle := E.facts.cells_le
    rw [hindex row column hrow hcolumn, Exn.ok_bind]
    unfold orderedMerkleProofFromLayers requireU32
    rw [hcount, Exn.ensure_of _ (by omega), Exn.ok_bind, Exn.ensure_of _ hlt, Exn.ok_bind]
    exact MerkleProof.make_ok.2 (E.honest_fields hlt)
  have hmem : ∀ {j}, j ∈ List.range E.commitment.extendedSide → j < E.side := List.mem_range.1
  -- row and column have a cell and a proof at each index
  have hrowCells := Exn.mapM_eq_map (f := fun j => E.cell request.row j) fun j hj => hcell request.row j hrow (hmem hj)
  have hrowProofs := Exn.mapM_eq_map
    (f := fun j => do orderedMerkleProofFromLayers C E.layers (← cellIndex E.commitment.extendedSide request.row j))
    fun j hj => hproof request.row j hrow (hmem hj)
  have hcolumnCells := Exn.mapM_eq_map (f := fun j => E.cell j request.column)
    fun j hj => hcell j request.column (hmem hj) hcolumn
  have hcolumnProofs := Exn.mapM_eq_map
    (f := fun j => do orderedMerkleProofFromLayers C E.layers (← cellIndex E.commitment.extendedSide j request.column))
    fun j hj => hproof j request.column (hmem hj) hcolumn
  unfold createSampleProof
  rw [hselect, Exn.ok_bind, Exn.ensure_of _ rfl, Exn.ok_bind]
  dsimp only
  rw [E.layers_ok, Exn.ok_bind, hrowCells, Exn.ok_bind, hrowProofs, Exn.ok_bind, hcolumnCells, Exn.ok_bind,
    hcolumnProofs, Exn.ok_bind]
  unfold SampleProof.make
  split
  · rfl
  · rename_i e he
    change (E.sampleFields request.row request.column).postInit = _ at he
    rw [E.sampleFields_valid hrow hcolumn] at he
    cases he

/-! ## Requests -/

theorem request_valid {f : RequestFields} (hindex : f.sampleIndex ≤ u32Max) (hrow : f.row ≤ u32Max)
    (hcolumn : f.column ≤ u32Max) : ∃ r, Request.make f = .ok r := by
  have hvalid : f.postInit = .ok () := by
    unfold RequestFields.postInit requireU32
    rw [Exn.ensure_of _ hindex, Exn.ok_bind, Exn.ensure_of _ hrow, Exn.ok_bind]
    exact Exn.ensure_of _ hcolumn
  unfold Request.make
  split
  · exact ⟨_, rfl⟩
  · rename_i e he
    rw [hvalid] at he
    cases he

/-- **Sampling returns**: the attempts of a request are not all rejected. -/
theorem select_returns {fruitHash : Hash} {sampleIndex : ℕ} (hindex : sampleIndex ≤ u32Max)
    (hinj : Set.InjOn C.hashBytes {b | ∃ a < E.side * E.side, b = attemptInput fruitHash sampleIndex a}) :
    ∃ r, selectSampleRequest C fruitHash E.commitment sampleIndex = .ok r ∧ r.row < E.side ∧ r.column < E.side := by
  have hpos := Nat.mul_pos E.facts.side_pos E.facts.side_pos
  have hle := E.facts.cells_le
  have hside := E.facts.side_le
  obtain ⟨a, ha, haccept⟩ := exists_accepted hpos hle hinj
  obtain ⟨offset, hoffset, hloop⟩ :=
    sampleLoop_returns (C := C) hpos (by omega) haccept (le_refl (u32Max + 1)) (by omega)
  have hrow : offset / E.side < E.side := Nat.div_lt_of_lt_mul hoffset
  have hcolumn : offset % E.side < E.side := Nat.mod_lt _ E.facts.side_pos
  obtain ⟨r, hr⟩ := request_valid (f := ⟨fruitHash, sampleIndex, offset / E.side, offset % E.side⟩)
    hindex (hrow.le.trans hside) (hcolumn.le.trans hside)
  have hselect : selectSampleRequest C fruitHash E.commitment sampleIndex = .ok r := by
    have huniform : uniformSampleOffset C fruitHash sampleIndex (E.side * E.side) = .ok offset := by
      unfold uniformSampleOffset requirePositiveU32 requireU32
      rw [Exn.ensure_of _ hindex, Exn.ok_bind, Exn.ensure_of _ hle, Exn.ok_bind, Exn.ensure_of _ (by omega), Exn.ok_bind]
      exact hloop
    unfold selectSampleRequest requireU32
    rw [Exn.ensure_of _ hindex, Exn.ok_bind]
    dsimp only
    rw [show E.commitment.extendedSide = E.side from rfl, huniform, Exn.ok_bind]
    exact hr
  have hfields : r.toRequestFields = ⟨fruitHash, sampleIndex, offset / E.side, offset % E.side⟩ := by
    unfold Request.make at hr
    split at hr
    · cases hr
      rfl
    · cases hr
  refine ⟨r, hselect, ?_, ?_⟩
  · rw [hfields]
    exact hrow
  · rw [hfields]
    exact hcolumn

end Encoding

/-- What checking a sample proof hashes. -/
def SampleProof.inputs (C : Crypto) (p : SampleProof) : List Bytes :=
  ((p.rowCells.zip p.rowProofs).zipIdx.flatMap fun q => cellInputs C p.row q.2 q.1.1 q.1.2) ++
    (p.columnCells.zip p.columnProofs).zipIdx.flatMap fun q => cellInputs C q.2 p.column q.1.1 q.1.2

theorem SampleProof.fields_inj {p q : SampleProof} : p.toSampleProofFields = q.toSampleProofFields ↔ p = q := by
  refine ⟨fun h => ?_, fun h => h ▸ rfl⟩
  cases p
  cases q
  cases h
  rfl

/-- What a sample is checked against: the request, the encoding and the proof. -/
def sampleInputs (E : Encoding C rs) (request : Request) (proof : SampleProof) : Set Bytes :=
  {b | (∃ a < E.side * E.side, b = attemptInput request.fruitHash request.sampleIndex a) ∨ b ∈ E.inputs ∨
    b ∈ proof.inputs C}

section Lines

variable {E : Encoding C rs} {B : Set Bytes} {cells : List Cell} {proofs : List MerkleProof}

/-- **A line of cells is accepted exactly if** its cells and proofs are those of the encoding.
`row` and `column` give the coordinates of the cells on the line. -/
theorem verifyLine_exact (hinj : Set.InjOn C.hashBytes B) (hE : ∀ b ∈ E.inputs, b ∈ B) {row column : ℕ → ℕ}
    (hrow : ∀ i < E.side, row i < E.side) (hcolumn : ∀ i < E.side, column i < E.side)
    (hcells : cells.length = E.side) (hproofs : proofs.length = E.side)
    (hline : ∀ q ∈ (cells.zip proofs).zipIdx, ∀ b ∈ cellInputs C (row q.2) (column q.2) q.1.1 q.1.2, b ∈ B) :
    ∃ accepted, verifyLine (fun i => verifyCellProof C E.commitment.cellRoot E.side (row i) (column i)) 0
        (cells.zip proofs) = .ok accepted ∧
      (accepted = true ↔ cells = (List.range E.side).map (fun i => cellAt E.cells (row i * E.side + column i)) ∧
        proofs = (List.range E.side).map fun i => E.honest (row i * E.side + column i)) := by
  have hcheck : ∀ q ∈ (cells.zip proofs).zipIdx,
      verifyCellProof C E.commitment.cellRoot E.side (row q.2) (column q.2) q.1.1 q.1.2 =
        .ok (decide (q.1.1 = cellAt E.cells (row q.2 * E.side + column q.2) ∧
          q.1.2 = E.honest (row q.2 * E.side + column q.2))) := by
    rintro ⟨⟨cell, proof⟩, i⟩ hq
    have hi : i < E.side := by
      have hlt := (List.getElem?_eq_some_iff.1 (List.mem_zipIdx_iff_getElem?.1 hq)).1
      rw [List.length_zip, hcells, hproofs, Nat.min_self] at hlt
      exact hlt
    have hhonest := E.honest_fields (E.index_lt (hrow i hi) (hcolumn i hi))
    have hinputs : ∀ b ∈ cellInputs C (row i) (column i) cell proof, b ∈ B :=
      hline ((cell, proof), i) hq
    have hverdict := verifyCellProof_eq hinj hE (hrow i hi) (hcolumn i hi) hinputs
    rw [← hhonest] at hverdict
    simp only [MerkleProof.fields_inj] at hverdict
    exact hverdict
  have hloop := verifyLine_eq (fun i => verifyCellProof C E.commitment.cellRoot E.side (row i) (column i))
    (fun i p => decide (p.1 = cellAt E.cells (row i * E.side + column i) ∧
      p.2 = E.honest (row i * E.side + column i))) hcheck
  exact ⟨_, hloop, line_iff hcells hproofs (fun i => cellAt E.cells (row i * E.side + column i))
    fun i => E.honest (row i * E.side + column i)⟩

end Lines

/-- **The check of a sample** accepts the honest proof and nothing else. -/
theorem checkSample_exact {E : Encoding C rs} {request : Request} {proof : SampleProof}
    (hinj : Set.InjOn C.hashBytes (sampleInputs E request proof))
    (hselect : selectSampleRequest C request.fruitHash E.commitment request.sampleIndex = .ok request)
    (hrow : request.row < E.side) (hcolumn : request.column < E.side) :
    checkSample C rs request E.commitment proof =
      .ok (decide (proof = E.sample request.row request.column hrow hcolumn)) := by
  have hfields : proof = E.sample request.row request.column hrow hcolumn →
      proof.toSampleProofFields = E.sampleFields request.row request.column := fun h => SampleProof.fields_inj.2 h
  -- every check that fails tells the proof from the honest one
  have hreject : ∀ {p : Prop}, p → (proof = E.sample request.row request.column hrow hcolumn → ¬p) →
      (pure false : Except PyError Bool) =
        .ok (decide (proof = E.sample request.row request.column hrow hcolumn)) := by
    intro p hp hne
    rw [decide_eq_false fun h => hne h hp]
    rfl
  unfold checkSample
  rw [hselect, Exn.ok_bind, if_neg (not_not.2 rfl)]
  dsimp only
  split
  · rename_i hbad
    refine hreject hbad fun h => ?_
    rw [hfields h]
    simp [Encoding.sampleFields]
  rename_i hcoords
  split
  · rename_i hbad
    refine hreject hbad fun h => ?_
    rw [hfields h]
    simp [Encoding.sampleFields, rowOf, Encoding.side]
  rename_i hrows
  split
  · rename_i hbad
    refine hreject hbad fun h => ?_
    rw [hfields h]
    simp [Encoding.sampleFields, columnOf, Encoding.side]
  rename_i hcolumns
  split
  · rename_i hbad
    refine hreject hbad fun h => ?_
    rw [hfields h, not_not]
    unfold Encoding.sampleFields rowOf columnOf cellAt
    simp [hrow, hcolumn]
  -- the shape is right: what is left to check is hashed
  rw [not_or, not_not, not_not] at hcoords hrows hcolumns
  have hE : ∀ b ∈ E.inputs, b ∈ sampleInputs E request proof := fun b hb => .inr (.inl hb)
  have hrowInputs : ∀ q ∈ (proof.rowCells.zip proof.rowProofs).zipIdx,
      ∀ b ∈ cellInputs C request.row q.2 q.1.1 q.1.2, b ∈ sampleInputs E request proof := by
    intro q hq b hb
    rw [← hcoords.1] at hb
    exact .inr (.inr (List.mem_append_left _ (List.mem_flatMap.2 ⟨q, hq, hb⟩)))
  have hcolumnInputs : ∀ q ∈ (proof.columnCells.zip proof.columnProofs).zipIdx,
      ∀ b ∈ cellInputs C q.2 request.column q.1.1 q.1.2, b ∈ sampleInputs E request proof := by
    intro q hq b hb
    rw [← hcoords.2] at hb
    exact .inr (.inr (List.mem_append_right _ (List.mem_flatMap.2 ⟨q, hq, hb⟩)))
  obtain ⟨rows, hrowsLoop, hrowsIff⟩ := verifyLine_exact hinj hE (fun _ _ => hrow) (fun _ hi => hi) hrows.1 hrows.2
    hrowInputs
  obtain ⟨columns, hcolumnsLoop, hcolumnsIff⟩ := verifyLine_exact hinj hE (fun _ hi => hi) (fun _ _ => hcolumn)
    hcolumns.1 hcolumns.2 hcolumnInputs
  rw [show E.commitment.extendedSide = E.side from rfl, hrowsLoop, Exn.ok_bind]
  split
  · rename_i hbad
    refine hreject hbad fun h => ?_
    rw [Bool.not_eq_false, hrowsIff, hfields h]
    exact ⟨rfl, rfl⟩
  rename_i hrowsTrue
  rw [hcolumnsLoop, Exn.ok_bind]
  split
  · rename_i hbad
    refine hreject hbad fun h => ?_
    rw [Bool.not_eq_false, hcolumnsIff, hfields h]
    exact ⟨rfl, rfl⟩
  rename_i hcolumnsTrue
  -- both lines are the encoding's, so they are codewords
  obtain ⟨hrowCells, hrowProofs⟩ := hrowsIff.1 (Bool.not_eq_false _ ▸ hrowsTrue)
  obtain ⟨hcolumnCells, hcolumnProofs⟩ := hcolumnsIff.1 (Bool.not_eq_false _ ▸ hcolumnsTrue)
  have hhonest : proof = E.sample request.row request.column hrow hcolumn := by
    apply SampleProof.fields_inj.1
    have heta : proof.toSampleProofFields = ⟨proof.row, proof.column, proof.rowCells, proof.rowProofs,
      proof.columnCells, proof.columnProofs⟩ := rfl
    rw [heta, hcoords.1, hcoords.2, hrowCells, hrowProofs, hcolumnCells, hcolumnProofs]
    rfl
  have hrowWord : isValidRsCodeword rs proof.rowCells E.commitment.dataSide = true := by
    rw [hrowCells]
    exact E.facts.rows _ hrow
  have hcolumnWord : isValidRsCodeword rs proof.columnCells E.commitment.dataSide = true := by
    rw [hcolumnCells]
    exact E.facts.columns _ hcolumn
  rw [hrowWord, hcolumnWord, decide_eq_true hhonest]
  rfl

/-- **A sample is accepted exactly if its proof is the honest one.** Where the byte strings
hashed for the request, the encoding and the proof do not collide, the request of a fruit and
an index exists; the proof of it is created, and accepted, and no other proof is; and no
other request is accepted with any proof. -/
theorem verifySample_exact (C : Crypto) (rs : ℕ → Bytes → Bool) (E : Encoding C rs) (request : Request)
    (proof : SampleProof) (hinj : Set.InjOn C.hashBytes (sampleInputs E request proof)) :
    ∃ expected, selectSampleRequest C request.fruitHash E.commitment request.sampleIndex = .ok expected ∧
      (request = expected → ∃ honest, createSampleProof E request = .ok honest ∧
        verifySample C rs request E.commitment proof = .ok (decide (proof = honest))) ∧
      (request ≠ expected → verifySample C rs request E.commitment proof = .ok false) := by
  have hvalid := request.valid
  simp only [RequestFields.postInit, requireU32, Exn.bind_ok, Exn.ensure_ok] at hvalid
  obtain ⟨_, hindex, -⟩ := hvalid
  obtain ⟨expected, hselect, hrow, hcolumn⟩ := E.select_returns hindex (hinj.mono fun b hb => .inl hb)
  refine ⟨expected, hselect, ?_, ?_⟩
  · rintro rfl
    refine ⟨_, E.create_ok hselect hrow hcolumn, ?_⟩
    unfold verifySample
    rw [checkSample_exact hinj hselect hrow hcolumn]
  · intro hne
    unfold verifySample checkSample
    rw [hselect, Exn.ok_bind, if_pos hne]
    rfl

/-- The code for one data symbol repeats it. -/
def repetitionCode (k : ℕ) (symbols : Bytes) : Bool := decide (symbols = List.replicate (2 * k) (symbols.headD 0))

/-- The root over a grid of four empty cells. -/
def loneRoot : Hash := rootOfLayers (layersFrom sampleCrypto 4 0
  (leavesOf sampleCrypto (cellRecords (List.replicate 4 (FixedBytes.zero 256)) 2)))

/-- The commitment to the empty payload. -/
def loneCommitment : Commitment sampleCrypto :=
  ⟨⟨0, 1, 2, loneRoot, commitmentRoot sampleCrypto 0 1 2 loneRoot⟩, by decide +kernel⟩

/-- The encoding of the empty payload. -/
def loneEncoding : Encoding sampleCrypto repetitionCode :=
  ⟨⟨loneCommitment, List.replicate 4 (FixedBytes.zero 256)⟩, by decide +kernel⟩

/-- The request for the first sample of it. -/
def loneRequest : Request := ⟨⟨genesisParentHash, 0, 0, 1⟩, by decide +kernel⟩

/-- The honest proof for the request. -/
def loneProof : SampleProof := loneEncoding.sample 0 1 (by decide +kernel) (by decide +kernel)

/-- The request is the one that sampling selects, and its proof is accepted. -/
theorem verifySample_exact_lone :
    createSampleProof loneEncoding loneRequest = .ok loneProof ∧
      verifySample sampleCrypto repetitionCode loneRequest loneEncoding.commitment loneProof = .ok true := by
  have hfree : ∀ b ∈ (List.range 4).map (attemptInput genesisParentHash 0) ++ loneEncoding.inputs ++
        loneProof.inputs sampleCrypto,
      ∀ b' ∈ (List.range 4).map (attemptInput genesisParentHash 0) ++ loneEncoding.inputs ++
        loneProof.inputs sampleCrypto,
      sampleCrypto.hashBytes b = sampleCrypto.hashBytes b' → b = b' := by
    decide +kernel
  have hmem : ∀ b ∈ sampleInputs loneEncoding loneRequest loneProof,
      b ∈ (List.range 4).map (attemptInput genesisParentHash 0) ++ loneEncoding.inputs ++
        loneProof.inputs sampleCrypto := by
    rintro b (⟨a, ha, rfl⟩ | hb | hb)
    · exact List.mem_append_left _ (List.mem_append_left _ (List.mem_map_of_mem (List.mem_range.2 ha)))
    · exact List.mem_append_left _ (List.mem_append_right _ hb)
    · exact List.mem_append_right _ hb
  obtain ⟨expected, hselect, haccept, -⟩ := verifySample_exact sampleCrypto repetitionCode loneEncoding loneRequest
    loneProof fun b hb b' hb' => hfree b (hmem b hb) b' (hmem b' hb')
  have hexpected : selectSampleRequest sampleCrypto loneRequest.fruitHash loneEncoding.commitment
      loneRequest.sampleIndex = .ok loneRequest := by
    decide +kernel
  rw [hexpected, Except.ok.injEq] at hselect
  obtain ⟨honest, hcreate, hverify⟩ := haccept hselect
  have hcreated : createSampleProof loneEncoding loneRequest = .ok loneProof := by
    decide +kernel
  rw [hcreated, Except.ok.injEq] at hcreate
  rw [← hcreate, decide_eq_true rfl] at hverify
  exact ⟨hcreated, hverify⟩

end Das

end TensorPow
