import TensorPow.Proof.Template
import TensorPow.Spec.Learned

/-!
# The residual layer loses nothing

* `predictedBytes`, `predict_eq`: the prior, then the fallback, each moved by 128.
* `residualsFrom`, `reads_residuals`: the gaps lead the reader to the bytes that differ.
* `body_fits`: the worst case is within what the decoder admits.
* `templateObject_roundTrip`: an object is read back.
-/

namespace TensorPow

open Wire

namespace LearnedCodec

@[simp] theorem lift_ok {α : Type} (a : α) : lift (.ok a : Except PyError α) = .ok a := rfl

/-! ## Prediction -/

/-- A weight as a byte. -/
def priorByte (value : ℤ) : Byte := Fin.ofNat 256 (value + 128).toNat

/-- The prediction: the prior as far as it goes, then the fallback. -/
def predictedBytes (w : LearnedCodecWeights) (length : ℕ) : Bytes :=
  (List.range length).map fun i => priorByte (w.positionPrior.getD i w.fallbackPrior)

@[simp] theorem length_predictedBytes (w : LearnedCodecWeights) (length : ℕ) :
    (predictedBytes w length).length = length := by
  simp [predictedBytes]

/-- The weights are of eight bits. -/
theorem weights_int8 (w : LearnedCodecWeights) :
    (∀ v ∈ w.positionPrior, -128 ≤ v ∧ v ≤ 127) ∧ -128 ≤ w.fallbackPrior ∧ w.fallbackPrior ≤ 127 := by
  have hvalid := w.valid
  simp only [WeightsFields.postInit, requireInt8, Exn.bind_ok, Exn.ensure_ok, Exn.forM_ok] at hvalid
  obtain ⟨-, -, -, -, -, hprior, -, hfallback, -⟩ := hvalid
  exact ⟨hprior, hfallback⟩

theorem weight_int8 (w : LearnedCodecWeights) (i : ℕ) :
    -128 ≤ w.positionPrior.getD i w.fallbackPrior ∧ w.positionPrior.getD i w.fallbackPrior ≤ 127 := by
  obtain ⟨hprior, hfallback⟩ := weights_int8 w
  by_cases hi : i < w.positionPrior.length
  · rw [List.getD_eq_getElem _ _ hi]
    exact hprior _ (List.getElem_mem hi)
  · rw [List.getD_eq_default _ _ (by omega)]
    exact hfallback

/-- The tensor that is filled with the fallback and overwritten by the prior. -/
theorem tensor_eq (prior : List ℤ) (fallback : ℤ) (length : ℕ) :
    prior.take (min length prior.length) ++ (List.replicate length fallback).drop (min length prior.length) =
      (List.range length).map fun i => prior.getD i fallback := by
  apply List.ext_getElem
  · simp only [List.length_append, List.length_take, List.length_drop, List.length_replicate, List.length_map,
      List.length_range]
    omega
  · intro i h₁ h₂
    rw [List.getElem_map, List.getElem_range]
    rw [List.length_map, List.length_range] at h₂
    by_cases hi : i < prior.length
    · rw [List.getElem_append_left (by rw [List.length_take]; omega), List.getElem_take,
        List.getD_eq_getElem _ _ hi]
    · rw [List.getElem_append_right (by rw [List.length_take]; omega), List.getElem_drop, List.getElem_replicate,
        List.getD_eq_default _ _ (by omega)]

/-- **The prediction** is made on every device that there is. -/
theorem predict_eq {T : Torch} {backend : LearnedBackend} {d : Device} (hbackend : resolveBackend T backend = .ok d)
    (w : LearnedCodecWeights) {length : ℕ} (hlen : length ≤ TemplateCodec.maxTemplateCompressedBytes) :
    predictTemplateBytes T length w backend = .ok (predictedBytes w length) := by
  unfold predictTemplateBytes requireUint
  rw [Exn.ensure_of _ hlen, lift_ok, Exn.ok_bind, hbackend, Exn.ok_bind]
  by_cases hzero : length = 0
  · subst hzero
    rfl
  · rw [if_neg hzero]
    dsimp only
    rw [tensor_eq, Exn.mapM_eq_map (g := priorByte)]
    · rw [List.map_map]
      rfl
    · intro v hv
      obtain ⟨i, -, rfl⟩ := List.mem_map.1 hv
      have hint8 := weight_int8 w i
      unfold requireByteValue require
      rw [Exn.ensure_of _ (by omega)]
      rfl

/-- Each predicted byte is a weight plus 128. -/
theorem predictedBytes_val (w : LearnedCodecWeights) {length i : ℕ} (hi : i < length) :
    (((predictedBytes w length).getD i 0).val : ℤ) = w.positionPrior.getD i w.fallbackPrior + 128 := by
  have hint8 := weight_int8 w i
  have hget : (predictedBytes w length).getD i 0 = priorByte (w.positionPrior.getD i w.fallbackPrior) := by
    unfold predictedBytes
    rw [List.getD_eq_getElem _ _ (by simpa using hi), List.getElem_map, List.getElem_range]
  rw [hget]
  unfold priorByte
  rw [Fin.val_ofNat, Nat.mod_eq_of_lt (by omega), Int.toNat_of_nonneg (by omega)]

/-! ## Residuals -/

/-- The residuals of what is left of an object from a position on. -/
def residualsFrom (start : ℕ) (pairs : List (Byte × Byte)) : List (ℕ × Byte) :=
  (pairs.zipIdx start).filterMap fun p => if p.1.1 ≠ p.1.2 then some (p.2, p.1.1) else none

/-- The bytes of some residuals. -/
def residualBytes : ℕ → List (ℕ × Byte) → Bytes
  | _, [] => []
  | next, r :: rest => varintBytes 10 (r.1 - next) ++ [r.2] ++ residualBytes (r.1 + 1) rest

theorem residualsFrom_cons (start : ℕ) (a b : Byte) (pairs : List (Byte × Byte)) :
    residualsFrom start ((a, b) :: pairs) =
      if a ≠ b then (start, a) :: residualsFrom (start + 1) pairs else residualsFrom (start + 1) pairs := by
  unfold residualsFrom
  rw [List.zipIdx_cons, List.filterMap_cons]
  by_cases h : a ≠ b
  · simp [h]
  · simp [h]

theorem length_residualsFrom_le (start : ℕ) (pairs : List (Byte × Byte)) :
    (residualsFrom start pairs).length ≤ pairs.length := by
  have hle := List.length_filterMap_le (fun p : (Byte × Byte) × ℕ => if p.1.1 ≠ p.1.2 then some (p.2, p.1.1) else none)
    (pairs.zipIdx start)
  rw [List.length_zipIdx] at hle
  exact hle

theorem residualsFrom_lt {start : ℕ} {pairs : List (Byte × Byte)} {r : ℕ × Byte} (h : r ∈ residualsFrom start pairs) :
    r.1 < start + pairs.length := by
  induction pairs generalizing start with
  | nil => exact absurd h List.not_mem_nil
  | cons p pairs ih =>
    rw [residualsFrom_cons] at h
    have hrest : r ∈ residualsFrom (start + 1) pairs → r.1 < start + (p :: pairs).length := by
      intro hmem
      have hlt := ih hmem
      rw [List.length_cons]
      omega
    split at h
    · rcases List.mem_cons.1 h with rfl | hmem
      · rw [List.length_cons]
        omega
      · exact hrest hmem
    · exact hrest h

theorem uvarint_ok {n : ℕ} (h : n ≤ u64Max) : uvarint n = .ok (varintBytes 10 n) := by
  unfold uvarint requireUint
  rw [Exn.ensure_of _ h]
  rfl

/-- The loop over the residuals writes them all. -/
theorem writeResiduals_ok (rs : List (ℕ × Byte)) (h : ∀ r ∈ rs, r.1 ≤ u64Max) (body : Bytes) (next : ℕ) :
    ∃ last, rs.foldlM writeResidual (body, next) = .ok (body ++ residualBytes next rs, last) := by
  induction rs generalizing body next with
  | nil =>
    refine ⟨next, ?_⟩
    rw [residualBytes, List.append_nil]
    rfl
  | cons r rs ih =>
    have hskip : r.1 - next ≤ u64Max := (Nat.sub_le _ _).trans (h r List.mem_cons_self)
    obtain ⟨last, hlast⟩ := ih (fun q hq => h q (List.mem_cons_of_mem _ hq)) (body ++ varintBytes 10 (r.1 - next) ++ [r.2])
      (r.1 + 1)
    refine ⟨last, ?_⟩
    rw [List.foldlM_cons]
    unfold writeResidual
    rw [uvarint_ok hskip, Exn.ok_bind]
    refine hlast.trans ?_
    rw [residualBytes]
    simp only [List.append_assoc]

/-- Positions below `128 ^ 2` take at most three bytes a residual. -/
theorem length_residualBytes_le {rs : List (ℕ × Byte)} (h : ∀ r ∈ rs, r.1 < 128 ^ 2) (next : ℕ) :
    (residualBytes next rs).length ≤ 3 * rs.length := by
  induction rs generalizing next with
  | nil => exact le_rfl
  | cons r rs ih =>
    have hrest := ih (fun q hq => h q (List.mem_cons_of_mem _ hq)) (r.1 + 1)
    have hpos := h r List.mem_cons_self
    have hskip : (varintBytes 10 (r.1 - next)).length ≤ 2 := length_varintBytes_le (by omega) (by omega)
    rw [residualBytes, List.length_append, List.length_append, List.length_singleton, List.length_cons]
    omega

/-- **The residuals are read back.** What is in front of a position agrees with the object
already, what is behind it is still the prediction. -/
theorem reads_residuals {templateLen : ℕ} (hmax : templateLen ≤ u64Max) :
    ∀ (front rest predicted : Bytes) (next : ℕ), rest.length = predicted.length →
      front.length + rest.length = templateLen → next ≤ front.length →
      Reads (readResiduals templateLen (residualsFrom front.length (rest.zip predicted)).length next (front ++ predicted))
        (front ++ rest) (residualBytes next (residualsFrom front.length (rest.zip predicted)))
  | front, [], [], next, _, _, _ => Reads.pure _
  | front, a :: rest, b :: predicted, next, hlen, htotal, hnext => by
    have hlen' : rest.length = predicted.length := Nat.succ.inj hlen
    have hfront : (front ++ [a]).length = front.length + 1 := by simp
    have htotal' : (front ++ [a]).length + rest.length = templateLen := by
      rw [List.length_cons] at htotal
      omega
    have hobject : front ++ a :: rest = front ++ [a] ++ rest := by simp
    rw [List.zip_cons_cons, residualsFrom_cons, hobject]
    by_cases hdiffer : a ≠ b
    · -- the reader jumps here and writes the byte
      rw [if_pos hdiffer, List.length_cons, residualBytes, List.append_assoc (varintBytes 10 _)]
      have hskip : front.length - next ≤ templateLen := by omega
      have hposition : next + (front.length - next) = front.length := by omega
      have hset : (front ++ b :: predicted).set front.length (Fin.ofNat 256 a.val) = front ++ [a] ++ predicted := by
        rw [List.set_append_right _ _ le_rfl, Nat.sub_self, List.set_cons_zero, ofNat_val]
        simp
      have hrest : Reads (readResiduals templateLen (residualsFrom (front.length + 1) (rest.zip predicted)).length
          (front.length + 1) (front ++ [a] ++ predicted)) (front ++ [a] ++ rest)
          (residualBytes (front.length + 1) (residualsFrom (front.length + 1) (rest.zip predicted))) := by
        rw [← hfront]
        exact reads_residuals hmax _ _ _ _ hlen' htotal' le_rfl
      unfold readResiduals
      refine (Reads.varint readErrors hskip (by unfold u64Max at hmax; omega)).bind ?_
      dsimp only
      rw [hposition]
      refine (Reads.lift (a := ()) (Exn.ensure_of _ (by omega))).bind (b := []) ?_
      refine (Reads.byte_val _ a).bind ?_
      rw [hset]
      exact hrest
    · -- the prediction is right here
      rw [not_not] at hdiffer
      subst hdiffer
      have hpredicted : front ++ a :: predicted = front ++ [a] ++ predicted := by simp
      rw [if_neg (not_not.2 rfl), hpredicted, ← hfront]
      exact reads_residuals hmax _ _ _ _ hlen' htotal' (by omega)

/-! ## Objects -/

/-- What the checks of a template object come to. -/
theorem templateObject_facts {o : Bytes} (h : requireTemplateObject o = .ok ()) :
    o.length ≤ TemplateCodec.maxTemplateCompressedBytes ∧ TemplateCodec.compressedObjectHeaderBytes ≤ o.length := by
  unfold requireTemplateObject requireMaxLen require at h
  obtain ⟨_, hmax, hrest⟩ := Exn.bind_ok.1 h
  obtain ⟨_, hheader, _⟩ := Exn.bind_ok.1 hrest
  refine ⟨?_, Exn.ensure_ok.1 hheader⟩
  by_contra hlong
  rw [Exn.ensure_not _ hlong] at hmax
  cases hmax

/-- The body of an object. -/
def bodyOf (C : Crypto) (w : LearnedCodecWeights) (o : Bytes) : Bytes :=
  learnedCodecMagic ++ ((C.hashBytes o).bytes ++ (varintBytes 10 o.length ++
    (varintBytes 10 (residualsFrom 0 (o.zip (predictedBytes w o.length))).length ++
      residualBytes 0 (residualsFrom 0 (o.zip (predictedBytes w o.length))))))

variable {C : Crypto} {w : LearnedCodecWeights} {o : Bytes}

/-- The number of residuals, and where they are. -/
theorem residuals_bounds (w : LearnedCodecWeights) (o : Bytes) :
    (residualsFrom 0 (o.zip (predictedBytes w o.length))).length ≤ o.length ∧
      ∀ r ∈ residualsFrom 0 (o.zip (predictedBytes w o.length)), r.1 < o.length := by
  have hzip : (o.zip (predictedBytes w o.length)).length = o.length := by
    rw [List.length_zip, length_predictedBytes, Nat.min_self]
  refine ⟨(length_residualsFrom_le _ _).trans_eq hzip, fun r hr => ?_⟩
  have hlt := residualsFrom_lt hr
  omega

theorem compress_ok {T : Torch} {backend : LearnedBackend} {d : Device} (hbackend : resolveBackend T backend = .ok d)
    (h : requireTemplateObject o = .ok ()) : compressTemplateObject C T o w backend = .ok (bodyOf C w o) := by
  obtain ⟨hmax, -⟩ := templateObject_facts h
  obtain ⟨hcount, hpositions⟩ := residuals_bounds w o
  have hsmall : o.length ≤ u64Max := by
    unfold TemplateCodec.maxTemplateCompressedBytes maxTxBytes TemplateCodec.compressedObjectHeaderBytes at hmax
    unfold u64Max
    omega
  have hzip : zipStrict o (predictedBytes w o.length) = .ok (o.zip (predictedBytes w o.length)) := by
    unfold zipStrict
    rw [length_predictedBytes, Exn.ensure_of _ (lt_irrefl _), Exn.ensure_of _ (lt_irrefl _)]
    rfl
  obtain ⟨last, hwritten⟩ := writeResiduals_ok (residualsFrom 0 (o.zip (predictedBytes w o.length)))
    (fun r hr => (hpositions r hr).le.trans hsmall)
    (learnedCodecMagic ++ (C.hashBytes o).bytes ++ varintBytes 10 o.length ++
      varintBytes 10 (residualsFrom 0 (o.zip (predictedBytes w o.length))).length) 0
  have hsame : residuals (o.zip (predictedBytes w o.length)) = residualsFrom 0 (o.zip (predictedBytes w o.length)) := rfl
  unfold compressTemplateObject
  rw [h, Exn.ok_bind, predict_eq hbackend w hmax, Exn.ok_bind, hzip, Exn.ok_bind]
  dsimp only
  rw [hsame, uvarint_ok hsmall, Exn.ok_bind, uvarint_ok (hcount.trans hsmall), Exn.ok_bind, hwritten, Exn.ok_bind]
  unfold bodyOf
  simp only [List.append_assoc]
  rfl

/-- **The worst case is admitted**: no residual takes more than three bytes. -/
theorem body_fits (h : requireTemplateObject o = .ok ()) : (bodyOf C w o).length ≤ maxLearnedCompressedBytes := by
  obtain ⟨hmax, -⟩ := templateObject_facts h
  obtain ⟨hcount, hpositions⟩ := residuals_bounds w o
  have hsmall : TemplateCodec.maxTemplateCompressedBytes < 128 ^ 2 := by decide
  have hlen : (varintBytes 10 o.length).length ≤ 2 := length_varintBytes_le (by omega) (by omega)
  have hnumber : (varintBytes 10 (residualsFrom 0 (o.zip (predictedBytes w o.length))).length).length ≤ 2 :=
    length_varintBytes_le (by omega) (by omega)
  have hbytes := length_residualBytes_le (fun r hr => (hpositions r hr).trans (by omega)) 0
  have hhash : (C.hashBytes o).bytes.length = hashLenBytes := (C.hashBytes o).len
  unfold bodyOf maxLearnedCompressedBytes
  simp only [List.length_append]
  omega

/-- The body is read back. -/
theorem reads_body {T : Torch} {backend : LearnedBackend} {d : Device} (hbackend : resolveBackend T backend = .ok d)
    (h : requireTemplateObject o = .ok ()) :
    Reads (readTemplateObject T w backend) ((C.hashBytes o).bytes, o) (bodyOf C w o) := by
  obtain ⟨hmax, hheader⟩ := templateObject_facts h
  obtain ⟨hcount, -⟩ := residuals_bounds w o
  have hsmall : o.length < 2 ^ 64 := by
    unfold TemplateCodec.maxTemplateCompressedBytes maxTxBytes TemplateCodec.compressedObjectHeaderBytes at hmax
    omega
  have hlen : o.length ≤ u64Max := by
    unfold u64Max
    omega
  have hresiduals := reads_residuals hlen [] o (predictedBytes w o.length) 0 (length_predictedBytes w o.length).symm
    (by rw [List.length_nil, Nat.zero_add]) le_rfl
  unfold readTemplateObject bodyOf
  refine (Reads.take _ rfl).bind ?_
  refine (Reads.lift (a := ()) (Exn.ensure_of _ rfl)).bind (b := []) ?_
  refine (Reads.take _ (C.hashBytes o).len).bind ?_
  refine (Reads.varint readErrors hmax hsmall).bind ?_
  refine (Reads.lift (a := ()) (Exn.ensure_of _ hheader)).bind (b := []) ?_
  refine (Reads.varint readErrors hcount (lt_of_le_of_lt hcount hsmall)).bind ?_
  refine (Reads.lift (predict_eq hbackend w hmax)).bind (b := []) ?_
  rw [← List.append_nil (residualBytes 0 _)]
  exact hresiduals.bind (Reads.pure _)

/-- **The residual layer loses nothing**: a template object is written within the limits of the
decoder and read back, whatever the weights, on whatever devices the two sides run. Both rest on
a prediction whose bytes are the prior, then the fallback, plus 128. -/
theorem templateObject_roundTrip (C : Crypto) (w : LearnedCodecWeights) {o : Bytes}
    (h : requireTemplateObject o = .ok ()) {T T' : Torch} {backend backend' : LearnedBackend} {d d' : Device}
    (hbackend : resolveBackend T backend = .ok d) (hbackend' : resolveBackend T' backend' = .ok d') :
    (∃ body, compressTemplateObject C T o w backend = .ok body ∧ body.length ≤ maxLearnedCompressedBytes ∧
      decompressTemplateObject C T' body w backend' = .ok o) ∧
    ∀ length ≤ TemplateCodec.maxTemplateCompressedBytes, ∃ bytes, predictTemplateBytes T length w backend = .ok bytes ∧
      bytes.length = length ∧
      ∀ i < length, ((bytes.getD i 0).val : ℤ) = w.positionPrior.getD i w.fallbackPrior + 128 := by
  refine ⟨⟨bodyOf C w o, compress_ok hbackend h, body_fits h, ?_⟩, fun length hlength =>
    ⟨_, predict_eq hbackend w hlength, length_predictedBytes w length, fun i hi => predictedBytes_val w hi⟩⟩
  have hparse := (reads_body (C := C) (w := w) hbackend' h).parse (.codec "trailing learned codec bytes")
  unfold decompressTemplateObject requireMaxLen
  rw [Exn.ensure_of _ (body_fits h), lift_ok, Exn.ok_bind, hparse, Exn.ok_bind]
  dsimp only
  unfold require
  rw [Exn.ensure_of _ rfl, Exn.ok_bind, h, Exn.ok_bind]
  rfl

/-- Weights with a prior for the first two bytes. -/
def shortWeights : LearnedCodecWeights := ⟨⟨[-127, 5], -128, List.replicate 32 0⟩, by decide⟩

/-- A template object that is all header: the prior is wrong about its second byte, and the
fallback about the sixth. -/
def headerObject : Bytes := [1, 0, 0, 0, 0, 9, 0, 0, 0, 0]

/-- A machine without devices. -/
def bareTorch : Torch := ⟨false, false⟩

theorem templateObject_roundTrip_header : requireTemplateObject headerObject = .ok () ∧
    (∃ body, compressTemplateObject sampleCrypto bareTorch headerObject shortWeights (.device .cpu) = .ok body ∧
      body.length ≤ maxLearnedCompressedBytes ∧
      decompressTemplateObject sampleCrypto bareTorch body shortWeights .auto = .ok headerObject) ∧
    ∀ length ≤ TemplateCodec.maxTemplateCompressedBytes, ∃ bytes,
      predictTemplateBytes bareTorch length shortWeights (.device .cpu) = .ok bytes ∧ bytes.length = length ∧
      ∀ i < length, ((bytes.getD i 0).val : ℤ) = shortWeights.positionPrior.getD i shortWeights.fallbackPrior + 128 := by
  have hobject : requireTemplateObject headerObject = .ok () := by decide
  exact ⟨hobject, templateObject_roundTrip sampleCrypto shortWeights hobject rfl rfl⟩

end LearnedCodec

end TensorPow
