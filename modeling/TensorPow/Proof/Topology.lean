import TensorPow.Proof.Decode
import TensorPow.Proof.Conservation
import TensorPow.Spec.Topology

/-!
# The topology codec is lossless and canonical

The detector takes differences of unsigned bytes, the decoder adds products of signed ones.
Both are the same modulo 256.

* `byteOf_affineRow`: an affine row, as residues.
* `factorAffineInt8_some`, `factorAffineInt8_of`: the detector finds the first row and the
  slope exactly if there are such.
* `topology_lossless`: what is compressed is read back, in the shorter form.
-/

namespace TensorPow.Topology

open Wire Exn

/-! ## Residues -/

theorem val_lowByte (z : ℤ) : ((lowByte z).val : ℤ) = z % 256 := by
  have hnonneg : 0 ≤ z % 256 := Int.emod_nonneg z (by decide)
  have hlt : z % 256 < 256 := Int.emod_lt_of_pos z (by decide)
  have hmod : (z % 256).toNat % 256 = (z % 256).toNat := Nat.mod_eq_of_lt (by omega)
  change (((z % 256).toNat % 256 : ℕ) : ℤ) = _
  rw [hmod, Int.toNat_of_nonneg hnonneg]

theorem int8Value_modEq (b : Byte) : int8Value b ≡ (b.val : ℤ) [ZMOD 256] := by
  unfold int8Value
  split
  · exact Int.ModEq.rfl
  · exact (Int.modEq_iff_dvd).2 ⟨1, by ring⟩

/-- A signed product is an unsigned one. -/
theorem val_affineByte (b s : Byte) (i : ℕ) :
    (lowByte (int8Value b + i * int8Value s)).val = (b.val + i * s.val) % 256 := by
  have hmod : int8Value b + i * int8Value s ≡ ((b.val + i * s.val : ℕ) : ℤ) [ZMOD 256] := by
    push_cast
    exact (int8Value_modEq b).add ((int8Value_modEq s).mul_left _)
  have hcast : ((lowByte (int8Value b + i * int8Value s)).val : ℤ) = (((b.val + i * s.val) % 256 : ℕ) : ℤ) := by
    rw [val_lowByte, hmod.eq]
    push_cast
    rfl
  exact_mod_cast hcast

/-- A byte of a hash. -/
def byteOf (h : Hash) (j : ℕ) : ℕ := (h.bytes.getD j 0).val

theorem byteOf_lt (h : Hash) (j : ℕ) : byteOf h j < 256 := (h.bytes.getD j 0).isLt

theorem ext_byteOf {h h' : Hash} (heq : ∀ j < hashLenBytes, byteOf h j = byteOf h' j) : h = h' := by
  apply FixedBytes.bytes_injective
  apply List.ext_getElem
  · rw [h.len, h'.len]
  · intro j hj hj'
    have hlt : j < hashLenBytes := by
      rw [h.len] at hj
      exact hj
    have hbyte := heq j hlt
    unfold byteOf at hbyte
    rw [List.getD_eq_getElem _ _ hj, List.getD_eq_getElem _ _ hj'] at hbyte
    exact Fin.ext hbyte

theorem byteOf_zipBytes (f : Byte → Byte → Byte) (a b : Hash) {j : ℕ} (hj : j < hashLenBytes) :
    byteOf (zipBytes f a b) j = (f (a.bytes.getD j 0) (b.bytes.getD j 0)).val := by
  have ha : j < a.bytes.length := by
    rw [a.len]
    exact hj
  have hb : j < b.bytes.length := by
    rw [b.len]
    exact hj
  unfold byteOf zipBytes
  have hzip : j < (List.zipWith f a.bytes b.bytes).length := by
    rw [List.length_zipWith]
    exact lt_min ha hb
  rw [List.getD_eq_getElem _ _ ha, List.getD_eq_getElem _ _ hb, List.getD_eq_getElem _ _ hzip, List.getElem_zipWith]

/-- **An affine row, as residues.** -/
theorem byteOf_affineRow (base slope : Hash) (i : ℕ) {j : ℕ} (hj : j < hashLenBytes) :
    byteOf (affineRow base slope i) j = (byteOf base j + i * byteOf slope j) % 256 := by
  unfold affineRow
  rw [byteOf_zipBytes _ _ _ hj, val_affineByte]
  rfl

theorem affineRow_zero (base slope : Hash) : affineRow base slope 0 = base := by
  apply ext_byteOf
  intro j hj
  have hlt := byteOf_lt base j
  rw [byteOf_affineRow _ _ _ hj]
  omega

/-- The difference of the first two rows. -/
def slopeOf (second base : Hash) : Hash := zipBytes (fun c b => lowByte ((c.val : ℤ) - b.val)) second base

theorem slopeOf_affine (base slope : Hash) : slopeOf (affineRow base slope 1) base = slope := by
  apply ext_byteOf
  intro j hj
  unfold slopeOf
  rw [byteOf_zipBytes _ _ _ hj]
  have hcast : (((lowByte ((((affineRow base slope 1).bytes.getD j 0).val : ℤ) - (base.bytes.getD j 0).val)).val : ℕ) : ℤ) =
      (byteOf slope j : ℤ) := by
    have hrow := byteOf_affineRow base slope 1 hj
    have hbase := byteOf_lt base j
    have hslope := byteOf_lt slope j
    rw [val_lowByte]
    unfold byteOf at *
    omega
  exact_mod_cast hcast

/-! ## The detector -/

/-- The rows with a first row and a slope. -/
def affineRows (base slope : Hash) (count : ℕ) : List Hash := (List.range count).map (affineRow base slope)

section Codec

variable {C : Crypto} {commitments : List Hash} {raw : Bytes}

/-- The body that holds a first row and a slope. -/
def factorBody (C : Crypto) (count : ℕ) (raw : Bytes) (base slope : Hash) : Bytes :=
  topologyCodecMagic ++ ([Fin.ofNat 256 topologyAffineInt8] ++ (le 4 count ++ ((C.hashBytes raw).bytes ++
    (base.bytes ++ slope.bytes))))

theorem length_factorBody (count : ℕ) (raw : Bytes) (base slope : Hash) :
    (factorBody C count raw base slope).length = topologyFactorBodyBytes := by
  simp only [factorBody, List.length_append, List.length_singleton, le_length, FixedBytes.length_bytes]
  rfl

theorem int8FactorBytes_eq (h : Hash) : int8FactorBytes h = h.bytes := by
  unfold int8FactorBytes
  conv_rhs => rw [← List.map_id h.bytes]
  apply List.map_congr_left
  intro b _
  apply Fin.ext
  have hb := b.isLt
  have hand : b.val &&& 0xFF = b.val % 2 ^ 8 := Nat.and_two_pow_sub_one_eq_mod b.val 8
  change (b.val &&& 0xFF) % 256 = b.val
  rw [hand]
  omega

theorem factorAffineInt8_some {body : Bytes} (h : factorAffineInt8 C commitments raw = some body) :
    ∃ base slope, 2 ≤ commitments.length ∧ commitments = affineRows base slope commitments.length ∧
      body = factorBody C commitments.length raw base slope := by
  rcases commitments with _ | ⟨base, _ | ⟨second, rest⟩⟩
  · cases h
  · cases h
  · unfold factorAffineInt8 at h
    dsimp only at h
    split at h
    · rename_i hall
      cases h
      refine ⟨base, slopeOf second base, by simp, ?_, ?_⟩
      · apply List.ext_getElem
        · simp [affineRows]
        · intro i hi hi'
          have hrow := List.all_eq_true.1 hall ((base :: second :: rest)[i], i)
            (List.mem_zipIdx_iff_getElem?.2 (List.getElem?_eq_getElem hi))
          simpa [affineRows, slopeOf] using hrow
      · rw [int8FactorBytes_eq, int8FactorBytes_eq]
        simp only [factorBody, slopeOf, List.append_assoc]
    · cases h

theorem factorAffineInt8_of {base slope : Hash} {count : ℕ} (hcount : 2 ≤ count) (raw : Bytes) :
    factorAffineInt8 C (affineRows base slope count) raw = some (factorBody C count raw base slope) := by
  obtain ⟨n, rfl⟩ : ∃ n, count = n + 2 := ⟨count - 2, by omega⟩
  have hrows : affineRows base slope (n + 2) = base :: affineRow base slope 1 ::
      (List.range n).map fun i => affineRow base slope (i + 2) := by
    unfold affineRows
    rw [List.range_succ_eq_map, List.range_succ_eq_map]
    simp [affineRow_zero, Function.comp_def]
  have hall : ((affineRows base slope (n + 2)).zipIdx.all fun p => p.1 = affineRow base slope p.2) = true := by
    rw [List.all_eq_true]
    intro p hp
    have hget := List.mem_zipIdx_iff_getElem?.1 hp
    unfold affineRows at hget
    rw [List.getElem?_map, Option.map_eq_some_iff] at hget
    obtain ⟨i, hi, hrow⟩ := hget
    obtain ⟨hlt, hi⟩ := List.getElem?_eq_some_iff.1 hi
    have hindex : p.2 = i := (List.getElem_range hlt).symm.trans hi
    rw [decide_eq_true_iff, ← hrow, hindex]
  have hslope : slopeOf (affineRow base slope 1) base = slope := slopeOf_affine base slope
  have hlength : (affineRows base slope (n + 2)).length = n + 2 := by simp [affineRows]
  rw [hrows] at hall hlength ⊢
  unfold factorAffineInt8
  unfold slopeOf at hslope
  dsimp only
  rw [hslope, if_pos hall, hlength, int8FactorBytes_eq, int8FactorBytes_eq]
  simp only [factorBody, List.append_assoc]

end Codec

/-! ## Objects -/

theorem requireCommitments_ok {c c' : List Hash} :
    requireCommitments c = .ok c' ↔ c.length ≤ maxTopologyCommitments ∧ c.Nodup ∧ c' = c := by
  simp only [requireCommitments, bind_ok, ensure_ok, pure_ok]
  constructor
  · rintro ⟨-, hle, -, hnodup, rfl⟩
    exact ⟨hle, hnodup, rfl⟩
  · rintro ⟨hle, hnodup, rfl⟩
    exact ⟨(), hle, (), hnodup, rfl⟩

theorem length_serialize (c : List Hash) : (serializeCommitments c).length = 4 + c.length * hashLenBytes := by
  unfold serializeCommitments
  rw [List.length_append, le_length, FixedBytes.length_flatMap_bytes, Nat.mul_comm]
  rfl

theorem length_serialize_le {c : List Hash} (h : c.length ≤ maxTopologyCommitments) :
    (serializeCommitments c).length ≤ maxTopologyRawBytes := by
  rw [length_serialize]
  unfold maxTopologyRawBytes
  have hmul := Nat.mul_le_mul_right hashLenBytes h
  omega

theorem count_lt {n : ℕ} (h : n ≤ maxTopologyCommitments) : n < 256 ^ 4 := by
  unfold maxTopologyCommitments parentCandidateMaxCount at h
  omega

theorem deserialize_serialize {c : List Hash} (hle : c.length ≤ maxTopologyCommitments) (hnodup : c.Nodup) :
    deserializeCommitments (serializeCommitments c) = .ok c := by
  have hread : readCommitments (serializeCommitments c).length (serializeCommitments c) = .ok (c, []) := by
    have hchecks : (do
        Exn.ensure (c.length ≤ maxTopologyCommitments) (.valueError "topology commitment count exceeds maximum")
        Exn.ensure ((serializeCommitments c).length = 4 + c.length * hashLenBytes)
          (.valueError "topology raw length is invalid") : Except PyError Unit) = .ok () := by
      rw [ensure_of _ hle, ok_bind]
      exact ensure_of _ (length_serialize c)
    have hrows : Reads (Reader.replicate (Reader.fixed truncated 32) c.length) c (c.flatMap FixedBytes.bytes) :=
      Reads.replicate fun h _ => Reads.fixed truncated h
    unfold readCommitments
    conv_lhs =>
      arg 2
      rw [serializeCommitments]
    refine (Reads.uint truncated (count_lt hle)).run_bind ?_
    refine Reader.lift_run_bind hchecks ?_
    rw [← List.append_nil (c.flatMap _)]
    exact hrows.run_bind rfl
  unfold deserializeCommitments requireMaxLen
  rw [ensure_of _ (length_serialize_le hle), ok_bind, Reader.parse, hread]
  exact requireCommitments_ok.2 ⟨hle, hnodup, rfl⟩

section Objects

variable {C : Crypto} {c : List Hash}

/-- The bytes of an object. -/
def objectBytes (codecId : ℕ) (raw compressed : Bytes) : Bytes :=
  le 2 codecId ++ (le 4 raw.length ++ (le 4 compressed.length ++ compressed))

theorem raw_lt {n : ℕ} (h : n ≤ maxTopologyRawBytes) : n < 256 ^ 4 := by
  unfold maxTopologyRawBytes maxTopologyCommitments parentCandidateMaxCount hashLenBytes at h
  omega

theorem compressedObject_eq {codecId : ℕ} {raw compressed : Bytes} (hid : codecId ≤ u16Max)
    (hraw : raw.length ≤ maxTopologyRawBytes) (hle : compressed.length ≤ raw.length) :
    compressedObject codecId raw compressed = .ok (objectBytes codecId raw compressed) := by
  have hlt := raw_lt hraw
  have hcompressed : compressed.length ≤ u32Max := by
    unfold u32Max
    omega
  unfold compressedObject requireUint objectBytes
  rw [ensure_of _ hid, ok_bind, ensure_of _ hraw, ok_bind, ensure_of _ hcompressed, ok_bind]
  simp only [List.append_assoc]
  rfl

/-- What is stored of the raw bytes: a codec and a body. -/
def formOf (C : Crypto) (c : List Hash) : ℕ × Bytes :=
  match factorAffineInt8 C c (serializeCommitments c) with
  | none => (codecRaw, serializeCommitments c)
  | some body =>
    if (serializeCommitments c).length ≤ body.length then (codecRaw, serializeCommitments c) else (codecTopology, body)

/-- The two forms: the raw bytes, or an affine body that is shorter. -/
theorem formOf_cases (C : Crypto) (c : List Hash) :
    (formOf C c = (codecRaw, serializeCommitments c) ∧
      ¬((∃ base slope, c = affineRows base slope c.length) ∧ topologyFactorBodyBytes < (serializeCommitments c).length)) ∨
    ∃ base slope, c = affineRows base slope c.length ∧ 2 ≤ c.length ∧
      topologyFactorBodyBytes < (serializeCommitments c).length ∧
      formOf C c = (codecTopology, factorBody C c.length (serializeCommitments c) base slope) := by
  have hlength := length_serialize c
  have hbody : topologyFactorBodyBytes = 105 := rfl
  unfold formOf
  cases hfactor : factorAffineInt8 C c (serializeCommitments c) with
  | none =>
    refine .inl ⟨rfl, ?_⟩
    rintro ⟨⟨base, slope, hrows⟩, hlt⟩
    have htwo : 2 ≤ c.length := by
      unfold hashLenBytes at hlength
      omega
    -- rows on a line would have been found
    have hsome : factorAffineInt8 C (affineRows base slope c.length) (serializeCommitments c) =
        some (factorBody C c.length (serializeCommitments c) base slope) := factorAffineInt8_of htwo _
    rw [← hrows, hfactor] at hsome
    cases hsome
  | some body =>
    obtain ⟨base, slope, htwo, hrows, rfl⟩ := factorAffineInt8_some hfactor
    dsimp only
    rw [length_factorBody]
    by_cases hlt : (serializeCommitments c).length ≤ topologyFactorBodyBytes
    · rw [if_pos hlt]
      exact .inl ⟨rfl, fun h => absurd h.2 (by omega)⟩
    · rw [if_neg hlt]
      exact .inr ⟨base, slope, hrows, htwo, by omega, rfl⟩

theorem formOf_le (C : Crypto) (c : List Hash) :
    (formOf C c).1 ≤ u16Max ∧ (formOf C c).2.length ≤ (serializeCommitments c).length := by
  rcases formOf_cases C c with ⟨h, -⟩ | ⟨base, slope, -, -, hlt, h⟩
  · rw [h]
    exact ⟨(by decide : codecRaw ≤ u16Max), le_rfl⟩
  · rw [h]
    refine ⟨(by decide : codecTopology ≤ u16Max), ?_⟩
    rw [length_factorBody]
    omega

theorem compress_eq (hle : c.length ≤ maxTopologyCommitments) (hnodup : c.Nodup) :
    compressAnchorTopology C c = .ok (objectBytes (formOf C c).1 (serializeCommitments c) (formOf C c).2) := by
  obtain ⟨hid, hbody⟩ := formOf_le C c
  rw [← compressedObject_eq hid (length_serialize_le hle) hbody]
  unfold compressAnchorTopology formOf
  rw [requireCommitments_ok.2 ⟨hle, hnodup, rfl⟩, ok_bind]
  dsimp only
  cases factorAffineInt8 C c (serializeCommitments c) with
  | none => rfl
  | some body =>
    dsimp only
    simp only [Nat.add_le_add_iff_left]
    by_cases hle : (serializeCommitments c).length ≤ body.length
    · rw [if_pos hle, if_pos hle]
    · rw [if_neg hle, if_neg hle]

/-- The body of a factored object is read back. -/
theorem decodeAffineInt8Body_eq {base slope : Hash} (hle : c.length ≤ maxTopologyCommitments) (htwo : 2 ≤ c.length)
    (hrows : c = affineRows base slope c.length) :
    decodeAffineInt8Body C (factorBody C c.length (serializeCommitments c) base slope) (serializeCommitments c).length =
      .ok (serializeCommitments c) := by
  have hread : readFactor (serializeCommitments c).length (factorBody C c.length (serializeCommitments c) base slope) =
      .ok ((c.length, C.hashBytes (serializeCommitments c), base, slope), []) := by
    have hchecks : (do
        Exn.ensure (c.length ≤ maxTopologyCommitments) (.valueError "topology commitment count exceeds maximum")
        Exn.ensure (2 ≤ c.length) (.valueError "topology affine factor requires at least two commitments")
        Exn.ensure (4 + c.length * hashLenBytes = (serializeCommitments c).length)
          (.valueError "uncompressed topology length mismatch") : Except PyError Unit) = .ok () := by
      rw [ensure_of _ hle, ok_bind, ensure_of _ htwo, ok_bind]
      exact ensure_of _ (length_serialize c).symm
    have hkind : Reads (Reader.uint truncated 1) topologyAffineInt8 [Fin.ofNat 256 topologyAffineInt8] :=
      Reads.uint truncated (by decide)
    unfold readFactor factorBody
    refine (Reads.take truncated rfl).run_bind ?_
    refine Reader.lift_run_bind (ensure_of _ rfl) ?_
    refine hkind.run_bind ?_
    refine Reader.lift_run_bind (ensure_of _ rfl) ?_
    refine (Reads.uint truncated (count_lt hle)).run_bind ?_
    refine Reader.lift_run_bind hchecks ?_
    refine (Reads.fixed truncated _).run_bind ?_
    refine (Reads.fixed truncated base).run_bind ?_
    rw [← List.append_nil slope.bytes]
    exact (Reads.fixed truncated slope).run_bind rfl
  unfold decodeAffineInt8Body
  rw [ensure_of _ (length_factorBody _ _ _ _), ok_bind, Reader.parse, hread]
  change (do
    Exn.ensure (C.hashBytes (serializeCommitments (affineRows base slope c.length)) = _) _
    return serializeCommitments (affineRows base slope c.length)) = _
  rw [← hrows, ensure_of _ rfl]
  rfl

/-- **What is compressed is read back.** -/
theorem decompress_object (hle : c.length ≤ maxTopologyCommitments) (hnodup : c.Nodup) :
    decompressAnchorTopology C (objectBytes (formOf C c).1 (serializeCommitments c) (formOf C c).2) = .ok c := by
  obtain ⟨hid, hbody⟩ := formOf_le C c
  have hraw := length_serialize_le hle
  have hrawlt := raw_lt hraw
  have hread : readObject (objectBytes (formOf C c).1 (serializeCommitments c) (formOf C c).2) =
      .ok (((formOf C c).1, (serializeCommitments c).length, (formOf C c).2.length, (formOf C c).2), []) := by
    unfold readObject objectBytes
    refine (Reads.uint truncated (lt_of_le_u16 hid)).run_bind ?_
    refine (Reads.uint truncated hrawlt).run_bind ?_
    refine (Reads.uint truncated (by omega)).run_bind ?_
    have htake : Reads (Reader.take truncated (formOf C c).2.length) (formOf C c).2 (formOf C c).2 :=
      Reads.take truncated rfl
    conv_lhs =>
      rhs
      rw [← List.append_nil (formOf C c).2]
    exact htake.run_bind rfl
  have hlength : (objectBytes (formOf C c).1 (serializeCommitments c) (formOf C c).2).length =
      compressedObjectHeaderBytes + (formOf C c).2.length := by
    simp only [objectBytes, List.length_append, le_length, compressedObjectHeaderBytes]
    omega
  -- either form gives the bytes back
  have hrawOf : rawOf C (formOf C c).1 (serializeCommitments c).length (formOf C c).2.length (formOf C c).2 =
      .ok (serializeCommitments c) := by
    rcases formOf_cases C c with ⟨h, -⟩ | ⟨base, slope, hrows, htwo, -, h⟩
    · rw [h]
      unfold rawOf
      rw [if_pos rfl, ensure_of _ rfl]
      rfl
    · rw [h]
      unfold rawOf
      rw [if_neg (by decide : codecTopology ≠ codecRaw), if_pos rfl, decodeAffineInt8Body_eq hle htwo hrows, ok_bind,
        ensure_of _ rfl]
      rfl
  unfold decompressAnchorTopology requireMaxLen
  rw [hlength, ensure_of _ (by unfold maxTopologyCompressedBytes; omega), ok_bind, ensure_of _ (by omega), ok_bind,
    Reader.parse, hread]
  change (do
    Exn.ensure ((serializeCommitments c).length ≤ maxTopologyRawBytes) _
    let raw ← rawOf C (formOf C c).1 (serializeCommitments c).length (formOf C c).2.length (formOf C c).2
    let commitments ← deserializeCommitments raw
    let canonical ← compressAnchorTopology C commitments
    Exn.ensure (canonical = objectBytes (formOf C c).1 (serializeCommitments c) (formOf C c).2) _
    return commitments) = _
  rw [ensure_of _ hraw, ok_bind, hrawOf, ok_bind, deserialize_serialize hle hnodup, ok_bind,
    compress_eq hle hnodup, ok_bind, ensure_of _ rfl]
  rfl

end Objects

/-- The rows are affine modulo 256 in each byte. -/
def Affine (rows : List Hash) : Prop :=
  ∃ base slope : Hash, ∀ i (h : i < rows.length), ∀ j < hashLenBytes,
    byteOf rows[i] j = (byteOf base j + i * byteOf slope j) % 256

theorem affine_iff {rows : List Hash} : Affine rows ↔ ∃ base slope, rows = affineRows base slope rows.length := by
  constructor
  · rintro ⟨base, slope, h⟩
    refine ⟨base, slope, ?_⟩
    apply List.ext_getElem
    · simp [affineRows]
    · intro i hi hi'
      apply ext_byteOf
      intro j hj
      rw [h i hi j hj]
      simp [affineRows, byteOf_affineRow base slope i hj]
  · rintro ⟨base, slope, h⟩
    refine ⟨base, slope, ?_⟩
    intro i hi j hj
    have hrow : rows[i] = affineRow base slope i := by
      have hget := congrArg (fun l => l[i]?) h
      simpa [affineRows, hi] using hget
    rw [hrow, byteOf_affineRow base slope i hj]

/-- **The topology codec is lossless and canonical.** Distinct hashes are read back, the
factored form is used exactly if the rows are affine modulo 256 and it is shorter, and bytes
that are accepted are those of what they are read as. -/
theorem topology_lossless (C : Crypto) :
    (∀ c : List Hash, c.length ≤ maxTopologyCommitments → c.Nodup →
      ∃ b, compressAnchorTopology C c = .ok b ∧ decompressAnchorTopology C b = .ok c ∧
        (b.take 2 = le 2 codecTopology ↔ Affine c ∧
          compressedObjectHeaderBytes + topologyFactorBodyBytes <
            compressedObjectHeaderBytes + (serializeCommitments c).length)) ∧
    ∀ b c, decompressAnchorTopology C b = .ok c → compressAnchorTopology C c = .ok b := by
  constructor
  · intro c hle hnodup
    refine ⟨_, compress_eq hle hnodup, decompress_object hle hnodup, ?_⟩
    have htake : (objectBytes (formOf C c).1 (serializeCommitments c) (formOf C c).2).take 2 = le 2 (formOf C c).1 :=
      List.take_left' (le_length _ _)
    rw [htake, affine_iff, Nat.add_lt_add_iff_left]
    rcases formOf_cases C c with ⟨h, hnot⟩ | ⟨base, slope, hrows, -, hlt, h⟩
    · rw [h]
      constructor
      · intro heq
        exact absurd heq (by decide : le 2 codecRaw ≠ le 2 codecTopology)
      · intro haffine
        exact absurd haffine hnot
    · rw [h]
      exact ⟨fun _ => ⟨⟨base, slope, hrows⟩, hlt⟩, fun _ => rfl⟩
  · intro b c h
    unfold decompressAnchorTopology at h
    obtain ⟨-, -, h⟩ := bind_ok.1 h
    obtain ⟨-, -, h⟩ := bind_ok.1 h
    obtain ⟨⟨codecId, uncompressedLen, compressedLen, compressed⟩, -, h⟩ := bind_ok.1 h
    obtain ⟨-, -, h⟩ := bind_ok.1 h
    obtain ⟨raw, -, h⟩ := bind_ok.1 h
    obtain ⟨commitments, -, h⟩ := bind_ok.1 h
    obtain ⟨canonical, hcanonical, h⟩ := bind_ok.1 h
    obtain ⟨_, hsame, h⟩ := bind_ok.1 h
    rw [pure_ok] at h
    rw [← h, hcanonical, ensure_ok.1 hsame]

end TensorPow.Topology
