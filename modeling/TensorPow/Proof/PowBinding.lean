import TensorPow.Spec.Headers

/-!
# What the fruit proof of work binds

The preimage determines the proof-of-work header (`fruitPowPreimage_inj`), and the
effective parents determine the bits of the bitmap (`selectedCandidates_inj`) but not
its length: bitmaps that agree once padded with zero bytes select the same parents.
-/

namespace TensorPow

open Wire

/-- Two byte strings that agree once padded with zero bytes. -/
def SamePadded (b c : Bytes) : Prop := ∀ i : ℕ, b.getD i 0 = c.getD i 0

/-- The fields of a header with the bitmap left out. -/
def FruitHeader.withoutBitmap (h : FruitHeader) : FruitHeaderFields :=
  { h.toFruitHeaderFields with parentBitmap := [] }

/-! ## Bitmaps -/

theorem bitAt_eq (b : Bytes) (i : ℕ) : bitAt b i = (b.getD (i / 8) 0).val.testBit (i % 8) := by
  unfold bitAt
  rw [List.getD_eq_getElem?_getD]
  cases b[i / 8]? with
  | none => simp
  | some x => rfl

theorem bitAt_eq_false {b : Bytes} {i : ℕ} (h : b.length * 8 ≤ i) : bitAt b i = false := by
  unfold bitAt
  rw [List.getElem?_eq_none (by omega)]

/-- The bits of two bitmaps agree exactly when their padded bytes do. -/
theorem bitAt_ext_iff {b c : Bytes} : (∀ i, bitAt b i = bitAt c i) ↔ SamePadded b c := by
  constructor
  · intro h i
    apply Fin.ext
    apply Nat.eq_of_testBit_eq
    intro j
    by_cases hj : j < 8
    · have := h (8 * i + j)
      rw [bitAt_eq, bitAt_eq, show (8 * i + j) / 8 = i by omega, show (8 * i + j) % 8 = j by omega] at this
      exact this
    · have hbig : ∀ x : Byte, x.val.testBit j = false := fun x =>
        Nat.testBit_lt_two_pow (x.isLt.trans_le (Nat.pow_le_pow_right (by decide : 0 < 2) (by omega : 8 ≤ j)))
      rw [hbig, hbig]
  · intro h i
    rw [bitAt_eq, bitAt_eq, h (i / 8)]

theorem hasBitsBeyond_eq_false {b : Bytes} {n i : ℕ} (h : hasBitsBeyond b n = false) (hi : n ≤ i) :
    bitAt b i = false := by
  by_cases hlen : i < b.length * 8
  · have hall := List.any_eq_false.1 h i (List.mem_range'_1.2 ⟨hi, by omega⟩)
    simpa using hall
  · exact bitAt_eq_false (by omega)

theorem selectedCandidates_sublist (b : Bytes) (i : ℕ) (cs : List Hash) :
    (selectedCandidates b i cs).Sublist cs := by
  induction cs generalizing i with
  | nil => exact List.Sublist.slnil
  | cons c cs ih =>
    unfold selectedCandidates
    split
    · exact (ih (i + 1)).cons_cons c
    · exact (ih (i + 1)).cons c

/-- Only bits inside the bitmap select a candidate. -/
theorem length_selectedCandidates (b : Bytes) (i : ℕ) (cs : List Hash) :
    (selectedCandidates b i cs).length ≤ b.length * 8 - i := by
  induction cs generalizing i with
  | nil => simp [selectedCandidates]
  | cons c cs ih =>
    have := ih (i + 1)
    unfold selectedCandidates
    split
    · rename_i hbit
      have hi : i < b.length * 8 := by
        by_contra hge
        rw [bitAt_eq_false (by omega)] at hbit
        cases hbit
      rw [List.length_cons]
      omega
    · omega

theorem selectedCandidates_congr {b c : Bytes} (h : ∀ i, bitAt b i = bitAt c i) (i : ℕ) (cs : List Hash) :
    selectedCandidates b i cs = selectedCandidates c i cs := by
  induction cs generalizing i with
  | nil => rfl
  | cons x cs ih => rw [selectedCandidates, selectedCandidates, h i, ih]

/-- Distinct candidates: the selection determines the bits. -/
theorem selectedCandidates_inj {b c : Bytes} {cs : List Hash} (hcs : cs.Nodup) {i : ℕ}
    (h : selectedCandidates b i cs = selectedCandidates c i cs) :
    ∀ j < cs.length, bitAt b (i + j) = bitAt c (i + j) := by
  induction cs generalizing i with
  | nil => intro j hj; cases hj
  | cons x cs ih =>
    rw [List.nodup_cons] at hcs
    have hnot : ∀ (e : Bytes) (l : List Hash), selectedCandidates e (i + 1) cs ≠ x :: l := by
      intro e l he
      have hx : x ∈ selectedCandidates e (i + 1) cs := he ▸ List.mem_cons_self
      exact hcs.1 ((selectedCandidates_sublist e (i + 1) cs).mem hx)
    have key : bitAt b i = bitAt c i ∧ selectedCandidates b (i + 1) cs = selectedCandidates c (i + 1) cs := by
      rw [selectedCandidates, selectedCandidates] at h
      cases hb : bitAt b i <;> cases hc : bitAt c i <;> simp only [hb, hc, if_true, if_false,
        Bool.false_eq_true] at h
      · exact ⟨rfl, h⟩
      · exact absurd h (hnot b _)
      · exact absurd h.symm (hnot c _)
      · exact ⟨rfl, (List.cons.inj h).2⟩
    intro j hj
    cases j with
    | zero => exact key.1
    | succ j =>
      rw [show i + (j + 1) = i + 1 + j by omega]
      exact ih hcs.2 key.2 j (by simpa using hj)

/-! ## The preimage -/

/-- What the checks of a proof-of-work header give. -/
theorem FruitPowHeader.postInit_ok {p : FruitPowHeader} (h : p.postInit = .ok ()) :
    p.version ≤ u16Max ∧ p.sigTypeSupported ≤ u16Max ∧ p.effectiveParentHashes.length ≤ u16Max ∧
      p.timestampMs ≤ u64Max ∧ p.shardId ≤ u32Max ∧ p.nonce ≤ u64Max := by
  simp only [FruitPowHeader.postInit, requireUint, Exn.bind_ok, Exn.ensure_ok, exists_and_left,
    exists_const] at h
  tauto

/-- **The preimage determines the proof-of-work header.** -/
theorem fruitPowPreimage_inj {p q : FruitPowHeader} (hp : p.postInit = .ok ()) (hq : q.postInit = .ok ())
    (h : fruitPowPreimage p = fruitPowPreimage q) : p = q := by
  obtain ⟨hpv, hps, hpn, hpt, hpd, hpc⟩ := FruitPowHeader.postInit_ok hp
  obtain ⟨hqv, hqs, hqn, hqt, hqd, hqc⟩ := FruitPowHeader.postInit_ok hq
  unfold u16Max u32Max u64Max at *
  replace h := (List.cons.inj h).2
  obtain ⟨h, hnonce⟩ := List.append_inj' h (by simp)
  obtain ⟨h, hshard⟩ := List.append_inj' h (by simp)
  obtain ⟨h, htime⟩ := List.append_inj' h (by simp)
  obtain ⟨h, hroot⟩ := List.append_inj' h (by simp)
  obtain ⟨h, hlatest⟩ := List.append_inj' h (by simp)
  obtain ⟨h, hparents⟩ := List.append_inj h (by simp)
  obtain ⟨h, hcount⟩ := List.append_inj' h (by simp)
  obtain ⟨hversion, hsig⟩ := List.append_inj' h (by simp)
  have hlen := le_inj (by omega) (by omega) hcount
  obtain ⟨pv, ps, pl, pa, pr, pt, pd, pc⟩ := p
  obtain ⟨qv, qs, ql, qa, qr, qt, qd, qc⟩ := q
  simp only at *
  rw [le_inj (by omega) (by omega) hversion, le_inj (by omega) (by omega) hsig,
    le_inj (by omega) (by omega) htime, le_inj (by omega) (by omega) hshard,
    le_inj (by omega) (by omega) hnonce, FixedBytes.bytes_inj.1 hlatest, FixedBytes.bytes_inj.1 hroot,
    FixedBytes.flatMap_bytes_inj hlen hparents]

/-! ## Headers -/

/-- What the checks of a fruit header give. -/
theorem FruitHeader.bounds (h : FruitHeader) :
    h.version = formatEpoch ∧ h.sigTypeSupported = sigTypeEd25519Bit ∧
      h.parentBitmap.length ≤ parentBitmapMaxBytes ∧ h.timestampMs ≤ u64Max ∧
      (h.shardId ≤ u32Max ∧ shardDepth h.shardId ≤ shardMaxDepth ∧
        shardPath h.shardId < 2 ^ shardDepth h.shardId) ∧ h.nonce ≤ u64Max := by
  have hv := h.valid
  simp only [FruitHeaderFields.postInit, requireFormatEpoch, requireSigMask, requireMaxLen, requireUint,
    requireShardId, Exn.bind_ok, Exn.ensure_ok, exists_and_left, exists_const] at hv
  tauto

/-- What a successful `effective_parent_hashes` checked and returned. -/
theorem FruitHeader.effectiveParentHashes_ok {h : FruitHeader} {cs l : List Hash} :
    h.effectiveParentHashes cs = .ok l ↔ hasBitsBeyond h.parentBitmap cs.length = false ∧ l.Nodup ∧
      l = h.parentSelected :: selectedCandidates h.parentBitmap 0 cs := by
  simp only [effectiveParentHashes, Exn.bind_ok, Exn.ensure_ok, Exn.pure_ok, exists_and_left, exists_const]
  constructor
  · rintro ⟨hb, hn, rfl⟩
    exact ⟨hb, hn, rfl⟩
  · rintro ⟨hb, hn, rfl⟩
    exact ⟨hb, hn, rfl⟩

/-- The proof-of-work header of a fruit header with effective parents `l`. -/
def FruitHeader.powHeader (h : FruitHeader) (l : List Hash) : FruitPowHeader :=
  { version := h.version, sigTypeSupported := h.sigTypeSupported, effectiveParentHashes := l,
    latestAnchor := h.latestAnchor, txMerkleRoot := h.txMerkleRoot, timestampMs := h.timestampMs,
    shardId := h.shardId, nonce := h.nonce }

/-- `to_pow_header` succeeds whenever `effective_parent_hashes` does. -/
theorem FruitHeader.toPowHeader_ok {h : FruitHeader} {cs l : List Hash}
    (hl : h.effectiveParentHashes cs = .ok l) :
    h.toPowHeader cs = .ok (h.powHeader l) ∧ (h.powHeader l).postInit = .ok () := by
  obtain ⟨hver, hsig, hmap, htime, hshard, hnonce⟩ := h.bounds
  obtain ⟨-, hnodup, heq⟩ := effectiveParentHashes_ok.1 hl
  have hlen : l.length ≤ u16Max := by
    have := length_selectedCandidates h.parentBitmap 0 cs
    rw [heq, List.length_cons]
    unfold parentBitmapMaxBytes at hmap
    unfold u16Max
    omega
  have hpost : (h.powHeader l).postInit = .ok () := by
    simp only [FruitPowHeader.postInit, powHeader, requireUint, Exn.bind_ok, Exn.ensure_ok,
      exists_and_left, exists_const, hver, hsig]
    exact ⟨by decide, by decide, by decide, hlen, hnodup, htime, hshard.1, hnonce⟩
  refine ⟨?_, hpost⟩
  rw [toPowHeader, hl, Exn.ok_bind]
  simp only [powHeader] at hpost ⊢
  rw [hpost]
  rfl

/-- **What one proof of work binds.** Two headers have distinct preimages exactly
when they differ outside the bitmap or their bitmaps differ by more than trailing zero
bytes. -/
theorem fruitPowPreimage_ne_iff {candidates l₁ l₂ : List Hash} {h₁ h₂ : FruitHeader}
    (hcs : candidates.Nodup) (hl₁ : h₁.effectiveParentHashes candidates = .ok l₁)
    (hl₂ : h₂.effectiveParentHashes candidates = .ok l₂) :
    ∃ p₁ p₂, h₁.toPowHeader candidates = .ok p₁ ∧ h₂.toPowHeader candidates = .ok p₂ ∧
      (fruitPowPreimage p₁ ≠ fruitPowPreimage p₂ ↔
        h₁.withoutBitmap ≠ h₂.withoutBitmap ∨ ¬SamePadded h₁.parentBitmap h₂.parentBitmap) := by
  obtain ⟨hp₁, hpost₁⟩ := FruitHeader.toPowHeader_ok hl₁
  obtain ⟨hp₂, hpost₂⟩ := FruitHeader.toPowHeader_ok hl₂
  refine ⟨_, _, hp₁, hp₂, ?_⟩
  obtain ⟨hb₁, -, rfl⟩ := FruitHeader.effectiveParentHashes_ok.1 hl₁
  obtain ⟨hb₂, -, rfl⟩ := FruitHeader.effectiveParentHashes_ok.1 hl₂
  rw [← not_and_or, not_iff_not]
  constructor
  · intro h
    have hpow := fruitPowPreimage_inj hpost₁ hpost₂ h
    simp only [FruitHeader.powHeader, FruitPowHeader.mk.injEq, List.cons.injEq] at hpow
    obtain ⟨hver, hsig, ⟨hparent, hsel⟩, hlatest, hroot, htime, hshard, hnonce⟩ := hpow
    refine ⟨?_, bitAt_ext_iff.1 fun i => ?_⟩
    · simp only [FruitHeader.withoutBitmap, hver, hsig, hparent, hlatest, hroot, htime, hshard, hnonce]
    · -- bits beyond the candidates are clear in both
      by_cases hi : i < candidates.length
      · simpa using selectedCandidates_inj hcs hsel i hi
      · rw [hasBitsBeyond_eq_false hb₁ (by omega), hasBitsBeyond_eq_false hb₂ (by omega)]
  · rintro ⟨hfields, hpad⟩
    simp only [FruitHeader.withoutBitmap, FruitHeaderFields.mk.injEq] at hfields
    obtain ⟨hver, hsig, hparent, -, hlatest, hroot, htime, hshard, hnonce⟩ := hfields
    have hsel := selectedCandidates_congr (bitAt_ext_iff.2 hpad) 0 candidates
    simp only [FruitHeader.powHeader, hver, hsig, hparent, hlatest, hroot, htime, hshard, hnonce, hsel]

/-- Header fields with the given bitmap and nonce and zero hashes. -/
def plainFields (bitmap : Bytes) (nonce : ℕ) : FruitHeaderFields where
  version := 0
  sigTypeSupported := 1
  parentSelected := genesisParentHash
  parentBitmap := bitmap
  latestAnchor := genesisParentHash
  txMerkleRoot := genesisParentHash
  timestampMs := 0
  shardId := 0
  nonce := nonce

/-- Two candidates, and headers that differ in the nonce, or in which candidate they name. -/
def pairCandidates : List Hash := [FixedBytes.ofNat 32 1, FixedBytes.ofNat 32 2]

def headerNaming (bitmap : Fin 3) (nonce : Fin 2) : FruitHeader :=
  ⟨plainFields [Fin.ofNat 256 bitmap.val] nonce.val, by revert bitmap nonce; decide⟩

theorem fruitPowPreimage_ne_of_bitmap :
    ∃ p₁ p₂ p₃, (headerNaming 1 0).toPowHeader pairCandidates = .ok p₁ ∧
      (headerNaming 2 0).toPowHeader pairCandidates = .ok p₂ ∧
      (headerNaming 1 1).toPowHeader pairCandidates = .ok p₃ ∧
      (headerNaming 1 0).withoutBitmap = (headerNaming 2 0).withoutBitmap ∧
      fruitPowPreimage p₁ ≠ fruitPowPreimage p₂ ∧ fruitPowPreimage p₁ ≠ fruitPowPreimage p₃ := by
  have hcs : pairCandidates.Nodup := by decide
  have hl₁ : (headerNaming 1 0).effectiveParentHashes pairCandidates = .ok [genesisParentHash, FixedBytes.ofNat 32 1] := by
    decide +kernel
  have hl₂ : (headerNaming 2 0).effectiveParentHashes pairCandidates = .ok [genesisParentHash, FixedBytes.ofNat 32 2] := by
    decide +kernel
  have hl₃ : (headerNaming 1 1).effectiveParentHashes pairCandidates = .ok [genesisParentHash, FixedBytes.ofNat 32 1] := by
    decide +kernel
  obtain ⟨p₁, p₂, hp₁, hp₂, hbitmap⟩ := fruitPowPreimage_ne_iff hcs hl₁ hl₂
  obtain ⟨p₁', p₃, hp₁', hp₃, hnonce⟩ := fruitPowPreimage_ne_iff hcs hl₁ hl₃
  obtain rfl := Except.ok.inj (hp₁.symm.trans hp₁')
  have hpadded : ¬SamePadded (headerNaming 1 0).parentBitmap (headerNaming 2 0).parentBitmap :=
    fun h => absurd (h 0) (by decide)
  exact ⟨p₁, p₂, p₃, hp₁, hp₂, hp₃, by decide, hbitmap.2 (.inr hpadded), hnonce.2 (.inl (by decide))⟩

/-- An empty bitmap and one zero byte: distinct headers, distinct bytes, one preimage. -/
theorem fruitPowPreimage_collision :
    ∃ h₁ h₂ : FruitHeader, h₁ ≠ h₂ ∧ h₁.serialize ≠ h₂.serialize ∧ ∃ p₁ p₂,
      h₁.toPowHeader [] = .ok p₁ ∧ h₂.toPowHeader [] = .ok p₂ ∧
      fruitPowPreimage p₁ = fruitPowPreimage p₂ :=
  ⟨⟨plainFields [] 0, by decide⟩, ⟨plainFields [0] 0, by decide⟩, by decide, by decide,
    _, _, rfl, rfl, rfl⟩

end TensorPow
