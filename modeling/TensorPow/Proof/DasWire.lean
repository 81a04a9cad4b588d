import TensorPow.Proof.Codec
import TensorPow.Proof.Das
import TensorPow.Spec.DasCodec

/-!
# Sample responses on the wire

A sample proof is a row and a column of cells, each cell with a Merkle proof, each proof with a
list of siblings. The decoder limits all three counts.

* `merkleDepth_le`: a grid of the largest side has Merkle proofs of at most 16 siblings.
* `create_fits`: an honest proof is within the limits of the decoder.
* `sampleResponse_lossless`: honest proofs are read back, and what is accepted is canonical.
-/

namespace TensorPow.Das

open Wire Exn

/-! ## Limits -/

theorem merkleDepth_le {k : ℕ} : ∀ {fuel width : ℕ}, width ≤ 2 ^ k → merkleDepth fuel width ≤ k := by
  induction k with
  | zero =>
    intro fuel width h
    cases fuel with
    | zero => exact le_rfl
    | succ fuel =>
      unfold merkleDepth
      rw [if_pos (by simpa using h)]
  | succ k ih =>
    intro fuel width h
    cases fuel with
    | zero => exact Nat.zero_le _
    | succ fuel =>
      have hhalf : (width + 1) / 2 ≤ 2 ^ k := by
        rw [Nat.pow_succ] at h
        omega
      have hrest : merkleDepth fuel ((width + 1) / 2) ≤ k := ih hhalf
      unfold merkleDepth
      split
      · exact Nat.zero_le _
      · omega

/-- The fields of a Merkle proof fit their places, and it has no more siblings than the depth
of its tree. -/
theorem MerkleProof.facts (p : MerkleProof) :
    p.leafIndex < 256 ^ 4 ∧ p.leafCount < 256 ^ 4 ∧ p.siblings.length = merkleDepth p.leafCount p.leafCount := by
  have hvalid := p.valid
  simp only [MerkleProofFields.postInit, requirePositiveU32, requireU32, bind_ok, ensure_ok] at hvalid
  obtain ⟨_, hindex, _, ⟨_, hcount, -⟩, _, -, hsiblings⟩ := hvalid
  unfold u32Max at hindex hcount
  exact ⟨by omega, by omega, hsiblings⟩

/-- A proof that the decoder does not refuse for its counts. -/
def MerkleProof.Fits (p : MerkleProof) : Prop :=
  p.leafCount ≤ maxExtendedSide * maxExtendedSide ∧ p.siblings.length ≤ maxMerkleSiblings

theorem MerkleProof.fits_of_leafCount {p : MerkleProof} (h : p.leafCount ≤ maxExtendedSide * maxExtendedSide) : p.Fits := by
  refine ⟨h, ?_⟩
  obtain ⟨-, -, hsiblings⟩ := p.facts
  have hgrid : maxExtendedSide * maxExtendedSide = 254 * 254 := rfl
  have hdepth : merkleDepth p.leafCount p.leafCount ≤ 16 := merkleDepth_le (by omega)
  unfold maxMerkleSiblings
  omega

/-- A side that the decoder admits. -/
def WireSide (n : ℕ) : Prop := n ≠ 0 ∧ n ≤ maxExtendedSide ∧ n % rsExtensionFactor = 0

theorem wireSide_lt {n : ℕ} (h : WireSide n) : n < 256 ^ 4 := by
  have hmax : maxExtendedSide = 254 := rfl
  have hle := h.2.1
  omega

theorem requireWireSide_ok {name : String} {n : ℕ} {u : Unit} : requireWireSide name n = .ok u ↔ WireSide n := by
  simp only [requireWireSide, requirePositiveU32, requireU32, bind_ok, ensure_ok]
  constructor
  · rintro ⟨_, ⟨_, -, hpos⟩, _, hmax, heven⟩
    exact ⟨hpos, hmax, heven⟩
  · intro h
    have hlt := wireSide_lt h
    have hle : n ≤ u32Max := by
      unfold u32Max
      omega
    exact ⟨(), ⟨(), hle, h.1⟩, (), h.2.1, h.2.2⟩

/-! ## Reading what was written -/

theorem reads_sibling (s : MerkleSibling) : Reads readSibling s (encodeSibling s) := by
  have hside : Reads (Reader.uint truncated 1) (if s.isLeft then 1 else 0) [if s.isLeft then 1 else 0] := by
    cases s.isLeft
    · exact Reads.uint truncated (by decide : 0 < 256 ^ 1)
    · exact Reads.uint truncated (by decide : 1 < 256 ^ 1)
  have hcheck : (if s.isLeft then 1 else 0) = 0 ∨ (if s.isLeft then 1 else 0) = 1 := by
    cases s.isLeft
    · exact .inl rfl
    · exact .inr rfl
  have hsame : (⟨decide ((if s.isLeft then 1 else 0) = 1), s.digest⟩ : MerkleSibling) = s := by
    obtain ⟨isLeft, digest⟩ := s
    cases isLeft
    · rfl
    · rfl
  unfold readSibling encodeSibling
  rw [← List.singleton_append]
  refine hside.bind ?_
  rw [← List.nil_append s.digest.bytes]
  refine (Reads.lift (ensure_of _ hcheck)).bind ?_
  rw [← List.append_nil s.digest.bytes]
  refine (Reads.fixed truncated s.digest).bind ?_
  rw [hsame]
  exact Reads.pure s

theorem reads_merkleProof {p : MerkleProof} (h : p.Fits) : Reads readMerkleProof p (encodeMerkleProof p) := by
  obtain ⟨hindex, hcount, -⟩ := p.facts
  have hlength : p.siblings.length < 256 ^ 4 := by
    have hmax := h.2
    unfold maxMerkleSiblings at hmax
    omega
  have hsiblings : Reads (Reader.replicate readSibling p.siblings.length) p.siblings (p.siblings.flatMap encodeSibling) :=
    Reads.replicate fun s _ => reads_sibling s
  unfold readMerkleProof encodeMerkleProof
  rw [List.append_assoc, List.append_assoc]
  refine (Reads.uint truncated hindex).bind ((Reads.uint truncated hcount).bind ?_)
  rw [← List.nil_append (le 4 p.siblings.length ++ _)]
  refine (Reads.lift (ensure_of _ h.1)).bind ((Reads.uint truncated hlength).bind ?_)
  rw [← List.nil_append (p.siblings.flatMap encodeSibling)]
  refine (Reads.lift (ensure_of _ h.2)).bind ?_
  rw [← List.append_nil (p.siblings.flatMap encodeSibling)]
  exact hsiblings.bind (Reads.lift (MerkleProof.make_ok.2 rfl))

/-- A cell with its proof, on the wire. -/
def witnessCellBytes (w : Cell × MerkleProof) : Bytes := w.1.bytes ++ encodeMerkleProof w.2

theorem reads_witnessCell {w : Cell × MerkleProof} (h : w.2.Fits) : Reads readWitnessCell w (witnessCellBytes w) := by
  unfold readWitnessCell witnessCellBytes
  refine (Reads.fixed truncated w.1).bind ?_
  rw [← List.append_nil (encodeMerkleProof w.2)]
  exact (reads_merkleProof h).bind (Reads.pure w)

/-- A line of cells with their proofs, on the wire. -/
def witnessBytes (l : List (Cell × MerkleProof)) : Bytes := le 4 l.length ++ l.flatMap witnessCellBytes

theorem reads_witness (name : String) {l : List (Cell × MerkleProof)} (hside : WireSide l.length)
    (h : ∀ w ∈ l, w.2.Fits) : Reads (readWitness name) l (witnessBytes l) := by
  unfold readWitness witnessBytes
  refine (Reads.uint truncated (wireSide_lt hside)).bind ?_
  rw [← List.nil_append (l.flatMap witnessCellBytes)]
  refine (Reads.lift ((requireWireSide_ok (u := ())).2 hside)).bind ?_
  exact Reads.replicate fun w hw => reads_witnessCell (h w hw)

/-! ## What was read -/

theorem readSibling_ok {b r : Bytes} {s : MerkleSibling} (h : readSibling b = .ok (s, r)) : b = encodeSibling s ++ r := by
  obtain ⟨side, c, hside, h⟩ := Reader.bind_ok.1 h
  obtain ⟨_, d, hcheck, h⟩ := Reader.bind_ok.1 h
  obtain ⟨digest, e, hdigest, h⟩ := Reader.bind_ok.1 h
  obtain ⟨rfl, rfl⟩ := Reader.pure_ok.1 h
  obtain ⟨hbit, rfl⟩ := Reader.lift_ok.1 hcheck
  rw [ensure_ok] at hbit
  rw [Reader.uint_ok hside, Reader.fixed_ok hdigest]
  unfold encodeSibling
  rcases hbit with rfl | rfl
  · rfl
  · rfl

theorem readMerkleProof_ok {b r : Bytes} {p : MerkleProof} (h : readMerkleProof b = .ok (p, r)) :
    b = encodeMerkleProof p ++ r := by
  obtain ⟨leafIndex, b₁, hindex, h⟩ := Reader.bind_ok.1 h
  obtain ⟨leafCount, b₂, hcount, h⟩ := Reader.bind_ok.1 h
  obtain ⟨_, b₃, hmax, h⟩ := Reader.bind_ok.1 h
  obtain ⟨siblingCount, b₄, hlength, h⟩ := Reader.bind_ok.1 h
  obtain ⟨_, b₅, hfew, h⟩ := Reader.bind_ok.1 h
  obtain ⟨siblings, b₆, hsiblings, hlast⟩ := Reader.bind_ok.1 h
  obtain ⟨-, rfl⟩ := Reader.lift_ok.1 hmax
  obtain ⟨-, rfl⟩ := Reader.lift_ok.1 hfew
  obtain ⟨hmake, rfl⟩ := Reader.lift_ok.1 hlast
  obtain ⟨rfl, hbytes⟩ := Reader.replicate_ok readSibling_ok hsiblings
  rw [Reader.uint_ok hindex, Reader.uint_ok hcount, Reader.uint_ok hlength, hbytes]
  unfold encodeMerkleProof
  rw [MerkleProof.make_ok.1 hmake]
  simp only [List.append_assoc]

theorem readWitnessCell_ok {b r : Bytes} {w : Cell × MerkleProof} (h : readWitnessCell b = .ok (w, r)) :
    b = witnessCellBytes w ++ r := by
  obtain ⟨cell, b₁, hcell, h⟩ := Reader.bind_ok.1 h
  obtain ⟨proof, b₂, hproof, h⟩ := Reader.bind_ok.1 h
  obtain ⟨rfl, rfl⟩ := Reader.pure_ok.1 h
  rw [Reader.fixed_ok hcell, readMerkleProof_ok hproof]
  unfold witnessCellBytes
  rw [List.append_assoc]

theorem readWitness_ok {name : String} {b r : Bytes} {l : List (Cell × MerkleProof)}
    (h : readWitness name b = .ok (l, r)) : WireSide l.length ∧ b = witnessBytes l ++ r := by
  obtain ⟨count, b₁, hcount, h⟩ := Reader.bind_ok.1 h
  obtain ⟨_, b₂, hcheck, hcells⟩ := Reader.bind_ok.1 h
  obtain ⟨hside, rfl⟩ := Reader.lift_ok.1 hcheck
  obtain ⟨rfl, hbytes⟩ := Reader.replicate_ok readWitnessCell_ok hcells
  refine ⟨requireWireSide_ok.1 hside, ?_⟩
  rw [Reader.uint_ok hcount, hbytes]
  unfold witnessBytes
  rw [List.append_assoc]

/-! ## Responses -/

theorem SampleProof.make_ok {f : SampleProofFields} {p : SampleProof} :
    SampleProof.make f = .ok p ↔ p.toSampleProofFields = f := by
  unfold SampleProof.make
  split
  · rw [Except.ok.injEq]
    exact ⟨fun h => h ▸ rfl, fun h => by cases h; rfl⟩
  · rename_i e he
    refine ⟨fun h => (by cases h), fun h => ?_⟩
    rw [← h, p.valid] at he
    cases he

/-- The cells of the row with their proofs. -/
def SampleProof.rows (p : SampleProof) : List (Cell × MerkleProof) := p.rowCells.zip p.rowProofs

/-- The cells of the column with their proofs. -/
def SampleProof.columns (p : SampleProof) : List (Cell × MerkleProof) := p.columnCells.zip p.columnProofs

/-- A proof on the wire. -/
def SampleProof.wireBytes (p : SampleProof) : Bytes :=
  le 4 p.row ++ (le 4 p.column ++ (witnessBytes p.rows ++ witnessBytes p.columns))

/-- A proof within the limits of the decoder. -/
structure SampleProof.Fits (p : SampleProof) : Prop where
  rows : WireSide p.rowCells.length
  columns : WireSide p.columnCells.length
  rowProofs : ∀ q ∈ p.rowProofs, q.Fits
  columnProofs : ∀ q ∈ p.columnProofs, q.Fits

theorem SampleProof.lengths (p : SampleProof) : p.rowCells.length = p.rowProofs.length ∧
    p.columnCells.length = p.columnProofs.length ∧ p.row < p.columnCells.length ∧ p.column < p.rowCells.length := by
  have hvalid := p.valid
  simp only [SampleProofFields.postInit, bind_ok, ensure_ok] at hvalid
  obtain ⟨_, hrows, _, hcolumns, _, -, _, -, hinside⟩ := hvalid
  exact ⟨hrows, hcolumns, hinside⟩

theorem encodeWitness_eq {cells : List Cell} {proofs : List MerkleProof} (hlength : cells.length = proofs.length)
    (hside : WireSide cells.length) : encodeWitness cells proofs = .ok (witnessBytes (cells.zip proofs)) := by
  have hcount : (cells.zip proofs).length = cells.length := by
    rw [List.length_zip, hlength, min_self]
  unfold encodeWitness witnessBytes
  rw [encodeUint_of (wireSide_lt hside), ok_bind, hcount]
  rfl

/-- The encoder writes a proof with sides that the decoder admits. -/
theorem encodeSampleResponse_eq {p : SampleProof} (hrows : WireSide p.rowCells.length)
    (hcolumns : WireSide p.columnCells.length) : encodeSampleResponse p = .ok p.wireBytes := by
  obtain ⟨hrowLength, hcolumnLength, hrow, hcolumn⟩ := p.lengths
  have hrowLt : p.row < 256 ^ 4 := lt_trans hrow (wireSide_lt hcolumns)
  have hcolumnLt : p.column < 256 ^ 4 := lt_trans hcolumn (wireSide_lt hrows)
  unfold encodeSampleResponse
  rw [encodeUint_of hrowLt, ok_bind, encodeUint_of hcolumnLt, ok_bind, encodeWitness_eq hrowLength hrows, ok_bind,
    encodeWitness_eq hcolumnLength hcolumns, ok_bind]
  unfold SampleProof.wireBytes SampleProof.rows SampleProof.columns
  simp only [List.append_assoc]
  rfl

/-- **A proof within the limits is read back.** -/
theorem decodeSampleResponse_wireBytes {p : SampleProof} (h : p.Fits) : decodeSampleResponse p.wireBytes = .ok p := by
  obtain ⟨hrowLength, hcolumnLength, hrow, hcolumn⟩ := p.lengths
  have hrowLt : p.row < 256 ^ 4 := lt_trans hrow (wireSide_lt h.columns)
  have hcolumnLt : p.column < 256 ^ 4 := lt_trans hcolumn (wireSide_lt h.rows)
  have hrowCount : p.rows.length = p.rowCells.length := by
    unfold SampleProof.rows
    rw [List.length_zip, hrowLength, min_self]
  have hcolumnCount : p.columns.length = p.columnCells.length := by
    unfold SampleProof.columns
    rw [List.length_zip, hcolumnLength, min_self]
  have hrows : Reads (readWitness "row_count") p.rows (witnessBytes p.rows) :=
    reads_witness _ (by rw [hrowCount]; exact h.rows) fun w hw => h.rowProofs w.2 (List.of_mem_zip hw).2
  have hcolumns : Reads (readWitness "column_count") p.columns (witnessBytes p.columns) :=
    reads_witness _ (by rw [hcolumnCount]; exact h.columns) fun w hw => h.columnProofs w.2 (List.of_mem_zip hw).2
  -- cells and proofs, taken apart again, are those of the sample
  have hmake : SampleProof.make ⟨p.row, p.column, p.rows.map Prod.fst, p.rows.map Prod.snd, p.columns.map Prod.fst,
      p.columns.map Prod.snd⟩ = .ok p := by
    rw [SampleProof.make_ok]
    unfold SampleProof.rows SampleProof.columns
    rw [List.map_fst_zip hrowLength.le, List.map_snd_zip hrowLength.ge, List.map_fst_zip hcolumnLength.le,
      List.map_snd_zip hcolumnLength.ge]
  unfold decodeSampleResponse
  rw [Reader.parse_ok]
  refine ⟨[], ?_⟩
  unfold readSampleResponse SampleProof.wireBytes
  refine (Reads.uint truncated hrowLt).run_bind ((Reads.uint truncated hcolumnLt).run_bind (hrows.run_bind ?_))
  rw [← List.append_nil (witnessBytes p.columns)]
  refine hcolumns.run_bind ?_
  change Reader.lift (SampleProof.make _) [] = _
  rw [hmake]
  rfl

/-- **What is accepted is canonical.** -/
theorem encode_of_decode {b : Bytes} {p : SampleProof} (h : decodeSampleResponse b = .ok p) :
    encodeSampleResponse p = .ok b := by
  obtain ⟨r, h⟩ := Reader.parse_ok.1 h
  obtain ⟨row, b₁, hrow, h⟩ := Reader.bind_ok.1 h
  obtain ⟨column, b₂, hcolumn, h⟩ := Reader.bind_ok.1 h
  obtain ⟨rows, b₃, hrows, h⟩ := Reader.bind_ok.1 h
  obtain ⟨columns, b₄, hcolumns, h⟩ := Reader.bind_ok.1 h
  obtain ⟨_, b₅, hfinish, h⟩ := Reader.bind_ok.1 h
  obtain ⟨hmake, -⟩ := Reader.lift_ok.1 h
  obtain ⟨rfl, -⟩ := Reader.finish_ok hfinish
  obtain ⟨hrowSide, hrowBytes⟩ := readWitness_ok hrows
  obtain ⟨hcolumnSide, hcolumnBytes⟩ := readWitness_ok hcolumns
  -- the sample is what the constructor made of the fields that were read
  have hfields := SampleProof.make_ok.1 hmake
  have hrowCells : p.rowCells.length = rows.length := by
    rw [hfields]
    exact List.length_map ..
  have hcolumnCells : p.columnCells.length = columns.length := by
    rw [hfields]
    exact List.length_map ..
  rw [encodeSampleResponse_eq (by rw [hrowCells]; exact hrowSide) (by rw [hcolumnCells]; exact hcolumnSide),
    Except.ok.injEq, Reader.uint_ok hrow, Reader.uint_ok hcolumn, hrowBytes, hcolumnBytes, List.append_nil]
  unfold SampleProof.wireBytes SampleProof.rows SampleProof.columns
  rw [hfields]
  dsimp only
  have hzip : ∀ l : List (Cell × MerkleProof), l = (l.map Prod.fst).zip (l.map Prod.snd) :=
    fun l => List.zip_of_prod rfl rfl
  rw [← hzip rows, ← hzip columns]

/-! ## Honest proofs -/

section Honest

variable {C : Crypto} {rs : ℕ → Bytes → Bool}

theorem Encoding.wireSide (E : Encoding C rs) : WireSide E.side := by
  have hrow := E.facts.rows 0 E.facts.side_pos
  unfold isValidRsCodeword at hrow
  rw [Bool.and_eq_true, decide_eq_true_iff] at hrow
  obtain ⟨⟨hlength, -, hmax⟩, -⟩ := hrow
  have hside : E.side = E.commitment.dataSide * rsExtensionFactor := by
    rw [← hlength]
    simp [rowOf]
  have hpos := E.facts.side_pos
  refine ⟨by omega, ?_, ?_⟩
  · rw [hside]
    exact Nat.mul_le_mul_right _ hmax
  · rw [hside]
    exact Nat.mul_mod_left _ _

/-- A Merkle proof over the grid of an encoding is within the limits. -/
theorem proof_fits (E : Encoding C rs) {index : Except PyError ℕ} {q : MerkleProof}
    (h : (do orderedMerkleProofFromLayers C E.layers (← index)) = .ok q) : q.Fits := by
  obtain ⟨i, -, h⟩ := bind_ok.1 h
  simp only [orderedMerkleProofFromLayers, bind_ok, MerkleProof.make_ok] at h
  obtain ⟨_, -, _, -, hfields⟩ := h
  apply MerkleProof.fits_of_leafCount
  obtain ⟨rest, hlayers⟩ := head_layersFrom (C := C) E.records.length 0 (leavesOf C E.records)
  have hcount : (E.layers.headD []).length = E.side * E.side := by
    unfold Encoding.layers
    rw [hlayers]
    exact E.length_leaves
  rw [hfields]
  dsimp only
  rw [hcount]
  exact Nat.mul_le_mul E.wireSide.2.1 E.wireSide.2.1

/-- **Honest proofs are within the limits of the decoder.** -/
theorem create_fits {E : Encoding C rs} {request : Request} {p : SampleProof}
    (h : createSampleProof E request = .ok p) : p.Fits := by
  unfold createSampleProof at h
  obtain ⟨expected, -, h⟩ := bind_ok.1 h
  obtain ⟨_, -, h⟩ := bind_ok.1 h
  obtain ⟨layers, hlayers, h⟩ := bind_ok.1 h
  rw [E.layers_ok, Except.ok.injEq] at hlayers
  subst hlayers
  obtain ⟨rowCells, hrowCells, h⟩ := bind_ok.1 h
  obtain ⟨rowProofs, hrowProofs, h⟩ := bind_ok.1 h
  obtain ⟨columnCells, hcolumnCells, h⟩ := bind_ok.1 h
  obtain ⟨columnProofs, hcolumnProofs, h⟩ := bind_ok.1 h
  have hfields := SampleProof.make_ok.1 h
  have hside : (List.range E.commitment.extendedSide).length = E.side := List.length_range
  have hrows : rowCells.length = E.side := (mapM_ok_iff.1 hrowCells).length_eq.symm.trans hside
  have hcolumns : columnCells.length = E.side := (mapM_ok_iff.1 hcolumnCells).length_eq.symm.trans hside
  refine ⟨?_, ?_, ?_, ?_⟩
  · rw [hfields]
    dsimp only
    rw [hrows]
    exact E.wireSide
  · rw [hfields]
    dsimp only
    rw [hcolumns]
    exact E.wireSide
  · rw [hfields]
    intro q hq
    obtain ⟨j, -, hproof⟩ := (mapM_ok_mem hrowProofs).2 q hq
    exact proof_fits E hproof
  · rw [hfields]
    intro q hq
    obtain ⟨j, -, hproof⟩ := (mapM_ok_mem hcolumnProofs).2 q hq
    exact proof_fits E hproof

/-- **The wire format is lossless and canonical.** The proofs that `create_sample_proof` makes
for any encoding are read back, and bytes that are accepted are those of what they are read as. -/
theorem sampleResponse_lossless (C : Crypto) (rs : ℕ → Bytes → Bool) :
    (∀ (E : Encoding C rs) (request : Request) (p : SampleProof), createSampleProof E request = .ok p →
      ∃ b, encodeSampleResponse p = .ok b ∧ decodeSampleResponse b = .ok p) ∧
    ∀ (b : Bytes) (p : SampleProof), decodeSampleResponse b = .ok p → encodeSampleResponse p = .ok b := by
  constructor
  · intro E request p h
    have hfits := create_fits h
    exact ⟨_, encodeSampleResponse_eq hfits.rows hfits.columns, decodeSampleResponse_wireBytes hfits⟩
  · intro b p h
    exact encode_of_decode h

end Honest

end TensorPow.Das
