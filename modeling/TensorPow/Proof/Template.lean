import TensorPow.Proof.Conservation
import TensorPow.Proof.Decode
import TensorPow.Proof.RangeCoder
import TensorPow.Wire.Varint

/-!
# When a compressed transaction can be read back

* `reads_uvarint`, `reads_readInput`, `reads_readOutput`: the template payload is read
  back field by field.
* `templatePayload`, `compress_eq`: the payload of a transaction. It is never longer than the
  transaction, so compressing always returns.
* `roundTrip_iff`: the object is read back exactly if the code of the payload fits the bytes
  that the decoder admits.
-/

namespace TensorPow

open Wire

namespace TemplateCodec

/-! ## Variable-length integers -/

@[simp] theorem lift_ok {α : Type} (a : α) : lift (.ok a : Except PyError α) = .ok a := rfl

theorem reads_u8 {n : ℕ} (h : n < 256) : Reads u8 n [Fin.ofNat 256 n] := Reads.byte truncated h

/-- A byte in front of what is read next. -/
theorem reads_tag (n : ℕ) (h : n < 256) {β : Type} {f : ℕ → Reader Failure β} {y : β} {c : Bytes}
    (hf : Reads (f n) y c) : Reads (u8 >>= f) y (Fin.ofNat 256 n :: c) := Reads.tag truncated n h hf

/-- The errors of `_Reader.uvarint`. -/
def varintErrors : VarintErrors Failure :=
  ⟨truncated, .codec "non-canonical varint", .codec "varint exceeds maximum", .codec "varint is too long"⟩

theorem uvarintLoop_eq (maxValue left index value : ℕ) :
    uvarintLoop maxValue left index value = Reader.varintLoop varintErrors maxValue left index value := by
  induction left generalizing index value with
  | zero => rfl
  | succ left ih =>
    unfold uvarintLoop Reader.varintLoop
    simp only [ih]
    rfl

theorem uvarintBytes_eq (left n : ℕ) : uvarintBytes left n = varintBytes left n := by
  induction left generalizing n with
  | zero => rfl
  | succ left ih =>
    unfold uvarintBytes varintBytes
    simp only [ih]

theorem reads_uvarint {maxValue n : ℕ} (hle : n ≤ maxValue) (hmax : n ≤ u64Max) :
    Reads (readUvarint maxValue) n (uvarintBytes 10 n) := by
  unfold readUvarint
  rw [uvarintLoop_eq, uvarintBytes_eq]
  exact Reads.varint varintErrors hle (by unfold u64Max at hmax; omega)

theorem uvarint_ok {n : ℕ} (h : n ≤ u64Max) : uvarint n = .ok (uvarintBytes 10 n) := by
  unfold uvarint lift requireUint
  rw [Exn.ensure_of _ h]
  rfl

/-- A value below `128 ^ k` takes at most `k` bytes. -/
theorem length_uvarintBytes_le {left k n : ℕ} (hn : n < 128 ^ k) (hk : 0 < k) : (uvarintBytes left n).length ≤ k := by
  rw [uvarintBytes_eq]
  exact length_varintBytes_le hn hk

/-! ## Locks -/

/-- The flags and the locks they announce are read back. -/
theorem reads_locks (unknown : String) {locktimeMs lockheight : ℕ} (ht : locktimeMs ≤ u64Max) (hh : lockheight ≤ u64Max) :
    Reads (do
      let flags ← readLockFlags unknown
      readLocks flags) (locktimeMs, lockheight)
      (Fin.ofNat 256 (lockFlags locktimeMs lockheight) :: lockBytes locktimeMs lockheight) := by
  have hflags : ∀ flags, flags < 4 → Reads (readLockFlags unknown) flags [Fin.ofNat 256 flags] := by
    intro flags hlt
    have hknown : flags &&& 0xFC = 0 := by
      interval_cases flags <;> rfl
    refine reads_tag _ (by omega) ?_
    refine (Reads.lift (a := ()) ?_).bind (b := []) (c := []) (Reads.pure _)
    exact Exn.ensure_of _ hknown
  have htime : Reads u64 locktimeMs (le 8 locktimeMs) := Reads.uint _ (lt_of_le_u64 ht)
  have hheight : Reads u64 lockheight (le 8 lockheight) := Reads.uint _ (lt_of_le_u64 hh)
  -- a lock that is zero has no bytes, only its flag says so
  by_cases h₁ : locktimeMs = 0
  · by_cases h₂ : lockheight = 0
    · subst h₁ h₂
      exact (hflags 0 (by omega)).bind (b := [_]) (c := [])
        ((Reads.pure 0).bind (b := []) (c := []) ((Reads.pure 0).bind (b := []) (c := []) (Reads.pure _)))
    · subst h₁
      have hbytes : lockBytes 0 lockheight = le 8 lockheight := by simp [lockBytes, h₂]
      have hval : lockFlags 0 lockheight = 2 := by simp [lockFlags, h₂]
      rw [hbytes, hval, ← List.append_nil (le 8 lockheight)]
      exact (hflags 2 (by omega)).bind (b := [_]) ((Reads.pure 0).bind (b := []) (hheight.bind (Reads.pure _)))
  · by_cases h₂ : lockheight = 0
    · subst h₂
      have hbytes : lockBytes locktimeMs 0 = le 8 locktimeMs := by simp [lockBytes, h₁]
      have hval : lockFlags locktimeMs 0 = 1 := by simp [lockFlags, h₁]
      rw [hbytes, hval, ← List.append_nil (le 8 locktimeMs)]
      exact (hflags 1 (by omega)).bind (b := [_])
        (htime.bind ((Reads.pure 0).bind (b := []) (c := []) (Reads.pure _)))
    · have hbytes : lockBytes locktimeMs lockheight = le 8 locktimeMs ++ le 8 lockheight := by
        simp [lockBytes, h₁, h₂]
      have hval : lockFlags locktimeMs lockheight = 3 := by simp [lockFlags, h₁, h₂]
      rw [hbytes, hval, ← List.append_nil (le 8 lockheight)]
      exact (hflags 3 (by omega)).bind (b := [_]) (htime.bind (hheight.bind (Reads.pure _)))

theorem length_lockBytes_le (locktimeMs lockheight : ℕ) : (lockBytes locktimeMs lockheight).length ≤ 16 := by
  unfold lockBytes
  rw [List.length_append]
  split <;> split <;> simp

/-! ## Inputs -/

section Inputs

variable (C : Crypto)

/-- The payload of an input. -/
def inputPayload (i : Input) : Bytes :=
  i.previousOutpoint.toBytes ++
    if isStandardEd25519Witness i.witness then 0x01 :: i.witness
    else 0x00 :: (uvarintBytes 10 i.witness.length ++ i.witness)

/-- The hash of the key of an input with a standard witness. -/
def signerOf (i : Input) : List Bytes :=
  if isStandardEd25519Witness i.witness then
    [(C.domainHash domainAddress (i.witness.drop ed25519SignatureBytes)).bytes]
  else []

variable {C}

theorem witness_le (i : Input) : i.witness.length ≤ txWitnessMaxBytes := by
  have hvalid := i.valid
  simp only [InputFields.postInit, requireUint, requireMaxLen, Exn.bind_ok, Exn.ensure_ok] at hvalid
  obtain ⟨-, -, -, -, hwitness⟩ := hvalid
  exact hwitness

theorem sequence_eq (i : Input) : i.sequence = txSequenceFinal := by
  have hvalid := i.valid
  simp only [InputFields.postInit, requireUint, requireMaxLen, Exn.bind_ok, Exn.ensure_ok] at hvalid
  obtain ⟨-, -, -, hsequence, -⟩ := hvalid
  exact hsequence

theorem pubkeyHash_ok {key : Bytes} (h : key.length = ed25519PublicKeyBytes) :
    lift (pubkeyHash C key) = .ok (C.domainHash domainAddress key) := by
  unfold lift pubkeyHash
  rw [Exn.ensure_of _ h]
  rfl

theorem compressInput_ok (acc : Bytes × List Bytes) (i : Input) :
    compressInput C acc i = .ok (acc.1 ++ inputPayload i, acc.2 ++ signerOf C i) := by
  unfold compressInput inputPayload signerOf
  by_cases hstd : isStandardEd25519Witness i.witness
  · have hkey : (i.witness.drop ed25519SignatureBytes).length = ed25519PublicKeyBytes := by
      rw [List.length_drop]
      unfold isStandardEd25519Witness at hstd
      omega
    rw [if_pos hstd, if_pos hstd, if_pos hstd]
    dsimp only
    rw [pubkeyHash_ok hkey, Exn.ok_bind]
    simp [List.append_assoc]
  · have hlen := witness_le i
    rw [if_neg hstd, if_neg hstd, if_neg hstd, uvarint_ok (by unfold txWitnessMaxBytes at hlen; unfold u64Max; omega),
      Exn.ok_bind]
    simp [List.append_assoc]

theorem compressInputs_ok (inputs : List Input) (acc : Bytes × List Bytes) :
    inputs.foldlM (compressInput C) acc =
      .ok (acc.1 ++ inputs.flatMap inputPayload, acc.2 ++ inputs.flatMap (signerOf C)) := by
  induction inputs generalizing acc with
  | nil => simp [pure, Except.pure]
  | cons i inputs ih =>
    rw [List.foldlM_cons, compressInput_ok, Exn.ok_bind, ih]
    simp [List.append_assoc]

theorem inputFromBytes_ok (i : Input) :
    inputFromBytes (i.previousOutpoint.toBytes ++ le 4 txSequenceFinal ++ le 2 i.witness.length ++ i.witness) =
      .ok i := by
  have hbytes : i.previousOutpoint.toBytes ++ le 4 txSequenceFinal ++ le 2 i.witness.length ++ i.witness = i.toBytes := by
    rw [← sequence_eq i]
    rfl
  unfold inputFromBytes
  rw [hbytes, (reads_input i).parse]
  rfl

theorem length_outpoint (o : Outpoint) : o.toBytes.length = 36 := by simp [Outpoint.toBytes]

/-- **An input is read back**, with the hash of its key. -/
theorem reads_readInput (i : Input) : Reads (readInput C) (i, signerOf C i) (inputPayload i) := by
  have hmake := inputFromBytes_ok i
  have hlen := witness_le i
  unfold readInput inputPayload
  refine (Reads.take _ (length_outpoint i.previousOutpoint)).bind ?_
  -- whatever the form of the witness, the rest is built from its bytes
  have hend : ∀ {witness : Bytes} {signer : List Bytes}, witness = i.witness → signer = signerOf C i →
      Reads (do
        let input ← Reader.lift (inputFromBytes (i.previousOutpoint.toBytes ++ le 4 txSequenceFinal ++
          le 2 witness.length ++ witness))
        return (input, signer)) (i, signerOf C i) [] := by
    rintro witness signer rfl rfl
    exact (Reads.lift hmake).bind (b := []) (c := []) (Reads.pure _)
  by_cases hstd : isStandardEd25519Witness i.witness
  · have hkey : (i.witness.drop ed25519SignatureBytes).length = ed25519PublicKeyBytes := by
      rw [List.length_drop]
      unfold isStandardEd25519Witness at hstd
      omega
    have hsig : (i.witness.take ed25519SignatureBytes).length = ed25519SignatureBytes := by
      rw [List.length_take]
      unfold isStandardEd25519Witness at hstd
      omega
    have hsigner : signerOf C i = [(C.domainHash domainAddress (i.witness.drop ed25519SignatureBytes)).bytes] :=
      if_pos hstd
    have hwitness : Reads (readWitness C 1) (i.witness, signerOf C i) i.witness := by
      have hread : Reads (readWitness C 1) (i.witness.take ed25519SignatureBytes ++ i.witness.drop ed25519SignatureBytes,
          signerOf C i) (i.witness.take ed25519SignatureBytes ++ (i.witness.drop ed25519SignatureBytes ++ [])) := by
        rw [hsigner]
        unfold readWitness
        rw [if_pos rfl]
        refine (Reads.take _ hsig).bind ((Reads.take _ hkey).bind ?_)
        exact (Reads.lift (pubkeyHash_ok hkey)).bind (b := []) (c := []) (Reads.pure _)
      rw [List.append_nil, List.take_append_drop] at hread
      exact hread
    rw [if_pos hstd]
    refine reads_tag 1 (by omega) ?_
    rw [← List.append_nil i.witness]
    exact hwitness.bind (hend rfl rfl)
  · have hsigner : signerOf C i = [] := if_neg hstd
    have hwitness : Reads (readWitness C 0) (i.witness, signerOf C i) (uvarintBytes 10 i.witness.length ++ i.witness) := by
      rw [hsigner]
      unfold readWitness
      rw [if_neg (by omega), if_pos rfl]
      have htake := (Reads.take truncated (b := i.witness) rfl).bind
        (f := fun witness => (pure (witness, []) : Reader Failure (Bytes × List Bytes))) (Reads.pure _)
      rw [List.append_nil] at htake
      exact (reads_uvarint hlen (by unfold txWitnessMaxBytes at hlen; unfold u64Max; omega)).bind htake
    rw [if_neg hstd]
    refine reads_tag 0 (by omega) ?_
    rw [← List.append_nil (uvarintBytes 10 i.witness.length ++ i.witness)]
    exact hwitness.bind (hend rfl rfl)

/-- An input is shortened. -/
theorem length_inputPayload_le (i : Input) : (inputPayload i).length ≤ i.toBytes.length := by
  have hlen := witness_le i
  have hcount : (uvarintBytes 10 i.witness.length).length ≤ 2 :=
    length_uvarintBytes_le (by unfold txWitnessMaxBytes at hlen; omega) (by omega)
  unfold inputPayload Input.toBytes
  split
  · simp
    omega
  · simp
    omega

end Inputs

/-! ## Outputs -/

section Outputs

variable (C : Crypto)

/-- The inner payload of a hashlock. -/
def innerPayload (payload : Bytes) : Bytes :=
  if payload.length = hashLenBytes then 0x00 :: payload else 0x02 :: payload

/-- The payload of an output, after its amount. -/
def conditionPayload (signers : List Bytes) (o : Output) : Bytes :=
  match o.template with
  | .pkh =>
    match signers.findIdx? (· = o.payload) with
    | none => 0x00 :: o.payload
    | some i => 0x01 :: uvarintBytes 10 i
  | .multisig => 0x02 :: o.payload
  | .hashlock => 0x03 :: (o.payload.take hashLenBytes ++ innerPayload (o.payload.drop hashLenBytes))

/-- The payload of an output. -/
def outputPayload (signers : List Bytes) (o : Output) : Bytes :=
  uvarintBytes 10 o.amountMatoms ++ conditionPayload signers o ++
    Fin.ofNat 256 (lockFlags o.locktimeMs o.lockheight) :: lockBytes o.locktimeMs o.lockheight

variable {C}

/-- What the checks of an output come to. -/
theorem output_facts (o : Output) : o.amountMatoms ≤ maxSupplyMatoms ∧ o.locktimeMs ≤ u64Max ∧ o.lockheight ≤ u64Max ∧
    requireTemplatePayload o.template o.payload = .ok () := by
  have hvalid := o.valid
  simp only [OutputFields.postInit, requireUint, requireMaxLen, Exn.bind_ok, Exn.ensure_ok] at hvalid
  obtain ⟨-, -, -, -, -, hmax, -, htime, -, hheight, -, -, htemplate⟩ := hvalid
  exact ⟨hmax, htime, hheight, htemplate⟩

theorem multisig_shape {payload : Bytes} (h : requireMultisigPayload payload = .ok ()) :
    ∃ threshold pubkeyCount keys, payload = threshold :: pubkeyCount :: keys ∧ 1 ≤ pubkeyCount.val ∧
      pubkeyCount.val ≤ multisigMaxKeys ∧ 1 ≤ threshold.val ∧ threshold.val ≤ pubkeyCount.val ∧
      keys.length = pubkeyCount.val * ed25519PublicKeyBytes := by
  match payload, h with
  | threshold :: pubkeyCount :: keys, h =>
    simp only [requireMultisigPayload, Exn.bind_ok, Exn.ensure_ok] at h
    obtain ⟨_, ⟨hpos, hle⟩, _, ⟨htpos, htle⟩, _, hlen, -⟩ := h
    exact ⟨_, _, _, rfl, hpos, hle, htpos, htle, hlen⟩

theorem reads_multisig {countRange thresholdRange : String} {payload : Bytes}
    (h : requireMultisigPayload payload = .ok ()) :
    Reads (readMultisig countRange thresholdRange) payload payload := by
  obtain ⟨threshold, pubkeyCount, keys, rfl, hpos, hle, htpos, htle, hlen⟩ := multisig_shape h
  have hbyte : ∀ b : Byte, Fin.ofNat 256 b.val = b := fun b => Fin.ext (Nat.mod_eq_of_lt b.isLt)
  have hread : Reads (readMultisig countRange thresholdRange)
      (Fin.ofNat 256 threshold.val :: Fin.ofNat 256 pubkeyCount.val :: keys)
      ([Fin.ofNat 256 threshold.val] ++ ([Fin.ofNat 256 pubkeyCount.val] ++ ([] ++ (keys ++ [])))) := by
    refine (reads_u8 threshold.isLt).bind ((reads_u8 pubkeyCount.isLt).bind ?_)
    refine (Reads.lift (a := ()) ?_).bind ((Reads.take _ hlen).bind (Reads.pure _))
    unfold require
    rw [Exn.ensure_of _ ⟨hpos, hle⟩, Exn.ok_bind]
    exact Exn.ensure_of _ ⟨htpos, htle⟩
  rw [hbyte, hbyte, List.append_nil] at hread
  exact hread

theorem innerPayload_ok {payload : Bytes} (h : requireInnerTemplatePayload payload = .ok ()) :
    encodeHashlockInnerPayload payload = .ok (innerPayload payload) ∧
      Reads decodeHashlockInnerPayload payload (innerPayload payload) := by
  unfold requireInnerTemplatePayload at h
  unfold encodeHashlockInnerPayload innerPayload decodeHashlockInnerPayload
  by_cases hlen : payload.length = hashLenBytes
  · rw [if_pos hlen, if_pos hlen]
    refine ⟨rfl, reads_tag 0 (by omega) ?_⟩
    rw [if_pos rfl]
    exact Reads.take _ hlen
  · rw [if_neg hlen] at h
    rw [if_neg hlen, if_neg hlen]
    refine ⟨?_, reads_tag 2 (by omega) ?_⟩
    · obtain ⟨threshold, pubkeyCount, keys, rfl, hpos, hle, htpos, htle, hkeys⟩ := multisig_shape h
      exact if_pos ⟨hpos, hle, htpos, htle, by rw [List.length_cons, List.length_cons, hkeys]; omega⟩
    · rw [if_neg (by omega), if_pos rfl]
      exact reads_multisig h

variable {signers : List Bytes}

/-- **A spending condition is read back**: a reference to a signer names the same hash. -/
theorem conditionPayload_ok (o : Output) (hsigners : signers.length ≤ u16Max) :
    encodeOutputPayload o signers = .ok (conditionPayload signers o) ∧
      Reads (decodeOutputPayload signers) (o.template, o.payload) (conditionPayload signers o) := by
  obtain ⟨-, -, -, htemplate⟩ := output_facts o
  unfold encodeOutputPayload conditionPayload decodeOutputPayload
  cases hkind : o.template with
  | pkh =>
    rw [hkind] at htemplate
    have hlen : o.payload.length = hashLenBytes := Exn.ensure_ok.1 htemplate
    dsimp only
    cases hindex : signers.findIdx? (· = o.payload) with
    | none =>
      refine ⟨rfl, reads_tag 0 (by omega) ?_⟩
      rw [if_pos rfl]
      have hread := (Reads.take truncated hlen).bind
        (f := fun payload => (pure (Template.pkh, payload) : Reader Failure (Template × Bytes))) (Reads.pure _)
      rw [List.append_nil] at hread
      exact hread
    | some i =>
      -- a hash that a signer has is written as the index of the signer
      obtain ⟨hi, hfound, -⟩ := List.findIdx?_eq_some_iff_getElem.1 hindex
      have hget : signers[i]? = some o.payload := by
        rw [List.getElem?_eq_getElem hi, of_decide_eq_true hfound]
      have hle : i ≤ u16Max := by omega
      have hmax : i ≤ u64Max := by
        unfold u16Max at hle
        unfold u64Max
        omega
      dsimp only
      refine ⟨?_, reads_tag 1 (by omega) ?_⟩
      · rw [uvarint_ok hmax]
        rfl
      · rw [if_neg (by omega), if_pos rfl, ← List.append_nil (uvarintBytes 10 i)]
        refine (reads_uvarint hle hmax).bind ?_
        refine (Reads.lift (a := o.payload) ?_).bind (b := []) (c := []) (Reads.pure _)
        rw [hget]
        rfl
  | multisig =>
    rw [hkind] at htemplate
    refine ⟨rfl, reads_tag 2 (by omega) ?_⟩
    rw [if_neg (by omega), if_neg (by omega), if_pos rfl]
    have hpayload : Reads (readMultisig "multisig pubkey_count outside range" "multisig threshold outside range")
        o.payload o.payload := reads_multisig htemplate
    have hread := hpayload.bind
      (f := fun payload => (pure (Template.multisig, payload) : Reader Failure (Template × Bytes))) (Reads.pure _)
    rw [List.append_nil] at hread
    exact hread
  | hashlock =>
    rw [hkind] at htemplate
    simp only [requireTemplatePayload, Exn.bind_ok, Exn.ensure_ok] at htemplate
    obtain ⟨_, hlong, hinner⟩ := htemplate
    obtain ⟨hencode, hdecode⟩ := innerPayload_ok hinner
    have hlen : (o.payload.take hashLenBytes).length = hashLenBytes := by
      rw [List.length_take]
      omega
    dsimp only
    refine ⟨by rw [hencode]; rfl, reads_tag 3 (by omega) ?_⟩
    rw [if_neg (by omega), if_neg (by omega), if_neg (by omega), if_pos rfl]
    have hread := (Reads.take truncated hlen).bind (f := fun lockHash => do
      let inner ← decodeHashlockInnerPayload
      return (Template.hashlock, lockHash ++ inner)) (hdecode.bind (Reads.pure _))
    rw [List.append_nil, List.take_append_drop] at hread
    exact hread

theorem amount_le (o : Output) : o.amountMatoms ≤ u64Max := by
  obtain ⟨hmax, -⟩ := output_facts o
  unfold maxSupplyMatoms at hmax
  unfold u64Max
  omega

/-- **An output is read back.** -/
theorem reads_readOutput (o : Output) (hsigners : signers.length ≤ u16Max) :
    Reads (readOutput signers) o (outputPayload signers o) := by
  obtain ⟨-, htime, hheight, -⟩ := output_facts o
  have hmake : Output.make o.toOutputFields = .ok o := Output.make_ok.2 rfl
  have hlocks := reads_locks "unknown output flags" htime hheight
  have hend : Reads (do
      let flags ← readLockFlags "unknown output flags"
      let locks ← readLocks flags
      Reader.lift (lift (Output.make ⟨o.amountMatoms, o.template, locks.1, locks.2, o.payload⟩))) o
      (Fin.ofNat 256 (lockFlags o.locktimeMs o.lockheight) :: lockBytes o.locktimeMs o.lockheight) := by
    have hread := hlocks.bind (f := fun locks => Reader.lift (lift (Output.make
      ⟨o.amountMatoms, o.template, locks.1, locks.2, o.payload⟩))) (Reads.lift (a := o) (by rw [hmake]; rfl))
    rw [List.append_nil, bind_assoc] at hread
    exact hread
  unfold readOutput outputPayload
  rw [List.append_assoc]
  exact (reads_uvarint (amount_le o) (amount_le o)).bind ((conditionPayload_ok o hsigners).2.bind hend)

theorem compressOutput_ok (payload : Bytes) (o : Output) (hsigners : signers.length ≤ u16Max) :
    compressOutput signers payload o = .ok (payload ++ outputPayload signers o) := by
  unfold compressOutput outputPayload
  rw [uvarint_ok (amount_le o), Exn.ok_bind, (conditionPayload_ok o hsigners).1, Exn.ok_bind]
  simp [List.append_assoc]

theorem compressOutputs_ok (outputs : List Output) (payload : Bytes) (hsigners : signers.length ≤ u16Max) :
    outputs.foldlM (compressOutput signers) payload = .ok (payload ++ outputs.flatMap (outputPayload signers)) := by
  induction outputs generalizing payload with
  | nil => simp [pure, Except.pure]
  | cons o outputs ih =>
    rw [List.foldlM_cons, compressOutput_ok _ _ hsigners, Exn.ok_bind, ih]
    simp [List.append_assoc]

/-- An output is not lengthened: the amounts leave room for the tags. -/
theorem length_outputPayload_le (o : Output) (hsigners : signers.length ≤ u16Max) :
    (outputPayload signers o).length ≤ o.toBytes.length := by
  obtain ⟨hmax, -, -, htemplate⟩ := output_facts o
  have hamount : (uvarintBytes 10 o.amountMatoms).length ≤ 8 :=
    length_uvarintBytes_le (by unfold maxSupplyMatoms at hmax; omega) (by omega)
  have hlocks := length_lockBytes_le o.locktimeMs o.lockheight
  -- the tag and an index or a count cost two bytes more at most
  have hcondition : (conditionPayload signers o).length ≤ 2 + o.payload.length := by
    unfold conditionPayload
    cases hkind : o.template with
    | pkh =>
      dsimp only
      cases hindex : signers.findIdx? (· = o.payload) with
      | none =>
        dsimp only
        rw [List.length_cons]
        omega
      | some i =>
        obtain ⟨hi, -⟩ := List.findIdx?_eq_some_iff_getElem.1 hindex
        rw [hkind] at htemplate
        have hlen : o.payload.length = hashLenBytes := Exn.ensure_ok.1 htemplate
        have hreference : (uvarintBytes 10 i).length ≤ 3 :=
          length_uvarintBytes_le (by unfold u16Max at hsigners; omega) (by omega)
        dsimp only
        rw [List.length_cons, hlen]
        unfold hashLenBytes
        omega
    | multisig =>
      dsimp only
      rw [List.length_cons]
      omega
    | hashlock =>
      have hinner : (innerPayload (o.payload.drop hashLenBytes)).length = 1 + (o.payload.drop hashLenBytes).length := by
        unfold innerPayload
        split <;> rw [List.length_cons] <;> omega
      have hsplit : (o.payload.take hashLenBytes).length + (o.payload.drop hashLenBytes).length = o.payload.length := by
        rw [← List.length_append, List.take_append_drop]
      dsimp only
      rw [List.length_cons, List.length_append, hinner]
      omega
  unfold outputPayload Output.toBytes
  simp only [List.length_append, List.length_cons, le_length]
  omega

end Outputs

/-! ## Payloads -/

section Payloads

variable (C : Crypto) (tx : Transaction)

/-- The hashes of the keys that sign a transaction with a standard witness. -/
def signersOf : List Bytes := tx.inputs.flatMap (signerOf C)

/-- The template payload of a transaction. -/
def templatePayload : Bytes :=
  Fin.ofNat 256 (lockFlags tx.locktimeMs tx.lockheight) :: lockBytes tx.locktimeMs tx.lockheight ++
    uvarintBytes 10 tx.inputs.length ++ uvarintBytes 10 tx.outputs.length ++ tx.inputs.flatMap inputPayload ++
    tx.outputs.flatMap (outputPayload (signersOf C tx))

/-- What the checks of a transaction come to. -/
structure TxFacts : Prop where
  version_eq : tx.version = formatEpoch
  sigType_eq : tx.sigType = sigTypeEd25519
  locktime_le : tx.locktimeMs ≤ u64Max
  lockheight_le : tx.lockheight ≤ u64Max
  inputs_le : tx.inputs.length ≤ u16Max
  outputs_ne : tx.outputs ≠ []
  outputs_le : tx.outputs.length ≤ u16Max
  size_le : tx.toBytes.length ≤ maxTxBytes

theorem tx_facts : TxFacts tx := by
  have hvalid := tx.valid
  simp only [TransactionFields.postInit, requireFormatEpoch, requireSigType, requireUint, Exn.bind_ok,
    Exn.ensure_ok] at hvalid
  obtain ⟨-, ⟨-, -, hversion⟩, -, ⟨-, -, hsig⟩, -, hlocktime, -, hlockheight, -, hinputs, -, hne, -, houtputs, hsize⟩ :=
    hvalid
  exact ⟨hversion, hsig, hlocktime, hlockheight, hinputs, hne, houtputs, hsize⟩

theorem length_signersOf_le : (signersOf C tx).length ≤ u16Max := by
  have hle : ∀ inputs : List Input, (inputs.flatMap (signerOf C)).length ≤ inputs.length := by
    intro inputs
    induction inputs with
    | nil => exact le_rfl
    | cons i inputs ih =>
      have hone : (signerOf C i).length ≤ 1 := by
        unfold signerOf
        split <;> simp
      rw [List.flatMap_cons, List.length_append, List.length_cons]
      omega
  exact (hle tx.inputs).trans (tx_facts tx).inputs_le

/-- A payload is not longer than the transaction. -/
theorem length_templatePayload_le : (templatePayload C tx).length ≤ tx.toBytes.length := by
  have hfacts := tx_facts tx
  have hinputs := hfacts.inputs_le
  have houtputs := hfacts.outputs_le
  have hsigners := length_signersOf_le C tx
  have hsum : ∀ {α : Type} (f g : α → Bytes) (l : List α), (∀ a ∈ l, (f a).length ≤ (g a).length) →
      (l.flatMap f).length ≤ (l.flatMap g).length := by
    intro α f g l h
    induction l with
    | nil => exact le_rfl
    | cons a l ih =>
      have ha := h a List.mem_cons_self
      have hrest := ih fun b hb => h b (List.mem_cons_of_mem _ hb)
      rw [List.flatMap_cons, List.flatMap_cons, List.length_append, List.length_append]
      omega
  have hins := hsum inputPayload Input.toBytes tx.inputs fun i _ => length_inputPayload_le i
  have houts := hsum (outputPayload (signersOf C tx)) Output.toBytes tx.outputs
    fun o _ => length_outputPayload_le o hsigners
  have hcount : ∀ {n}, n ≤ u16Max → (uvarintBytes 10 n).length ≤ 3 :=
    fun h => length_uvarintBytes_le (by unfold u16Max at h; omega) (by omega)
  have hin := hcount hinputs
  have hout := hcount houtputs
  have hlocks := length_lockBytes_le tx.locktimeMs tx.lockheight
  unfold templatePayload TransactionFields.toBytes TransactionFields.layout
  simp only [List.length_append, List.length_cons, le_length]
  omega

theorem templatePayload_fits : (templatePayload C tx).length ≤ maxTemplateCompressedBytes :=
  calc (templatePayload C tx).length ≤ tx.toBytes.length := length_templatePayload_le C tx
    _ ≤ maxTxBytes := (tx_facts tx).size_le
    _ ≤ maxTemplateCompressedBytes := Nat.le_add_right _ _

theorem le_u64_of_le_u16 {n : ℕ} (h : n ≤ u16Max) : n ≤ u64Max := by
  unfold u16Max at h
  unfold u64Max
  omega

theorem compress_eq : compressTemplatePayload C tx = .ok (templatePayload C tx) := by
  have hinputs := le_u64_of_le_u16 (tx_facts tx).inputs_le
  have houtputs := le_u64_of_le_u16 (tx_facts tx).outputs_le
  unfold compressTemplatePayload
  dsimp only
  rw [uvarint_ok hinputs, Exn.ok_bind, uvarint_ok houtputs, Exn.ok_bind, compressInputs_ok, Exn.ok_bind]
  dsimp only
  have houts := compressOutputs_ok tx.outputs
    (Fin.ofNat 256 (lockFlags tx.locktimeMs tx.lockheight) :: lockBytes tx.locktimeMs tx.lockheight ++
      uvarintBytes 10 tx.inputs.length ++ uvarintBytes 10 tx.outputs.length ++ tx.inputs.flatMap inputPayload)
    (length_signersOf_le C tx)
  unfold signersOf at houts
  rw [List.nil_append, houts, Exn.ok_bind]
  unfold require
  rw [Exn.ensure_of]
  · rfl
  · exact templatePayload_fits C tx

/-- **The payload is read back.** -/
theorem decompress_payload : decompressTemplatePayload C (templatePayload C tx) = .ok tx := by
  have hfacts := tx_facts tx
  have hmake : Transaction.make tx.toTransactionFields = .ok tx := Transaction.make_ok.2 rfl
  have hne : tx.outputs.length ≠ 0 := fun h => hfacts.outputs_ne (List.eq_nil_of_length_eq_zero h)
  have hins : Reads (Reader.replicate (readInput C) tx.inputs.length) (tx.inputs.map fun i => (i, signerOf C i))
      (tx.inputs.flatMap inputPayload) := by
    have hall : ∀ q ∈ tx.inputs.map fun i => (i, signerOf C i), Reads (readInput C) q (inputPayload q.1) := by
      intro q hq
      obtain ⟨i, -, rfl⟩ := List.mem_map.1 hq
      exact reads_readInput i
    have hread := Reads.replicate hall
    rw [List.length_map, List.flatMap_map] at hread
    exact hread
  have houts : Reads (Reader.replicate (readOutput (signersOf C tx)) tx.outputs.length) tx.outputs
      (tx.outputs.flatMap (outputPayload (signersOf C tx))) :=
    Reads.replicate fun o _ => reads_readOutput o (length_signersOf_le C tx)
  -- the reader collects the signers from the inputs as the writer did
  have hsigners : (tx.inputs.map fun i => (i, signerOf C i)).flatMap Prod.snd = signersOf C tx := by
    rw [List.flatMap_map]
    rfl
  have hmap : (tx.inputs.map fun i => (i, signerOf C i)).map Prod.fst = tx.inputs := by
    rw [List.map_map]
    exact List.map_id _
  have hread : Reads (readFields C) tx.toTransactionFields (templatePayload C tx) := by
    have hfields : tx.toTransactionFields = ⟨formatEpoch, sigTypeEd25519, tx.locktimeMs, tx.lockheight, tx.inputs,
        tx.outputs⟩ := by
      rw [← hfacts.version_eq, ← hfacts.sigType_eq]
    -- the fields in the order in which they are read
    have hbytes : templatePayload C tx =
        (Fin.ofNat 256 (lockFlags tx.locktimeMs tx.lockheight) :: lockBytes tx.locktimeMs tx.lockheight) ++
          (uvarintBytes 10 tx.inputs.length ++ (uvarintBytes 10 tx.outputs.length ++ ([] ++
            (tx.inputs.flatMap inputPayload ++ (tx.outputs.flatMap (outputPayload (signersOf C tx)) ++ []))))) := by
      unfold templatePayload
      simp only [List.append_assoc, List.nil_append, List.append_nil]
    have hbind : readFields C = (do
        let flags ← readLockFlags "unknown transaction flags"
        readLocks flags) >>= fun locks => do
          let inputCount ← readUvarint u16Max
          let outputCount ← readUvarint u16Max
          Reader.lift (require (outputCount ≠ 0) "output_count must be nonzero")
          let inputs ← Reader.replicate (readInput C) inputCount
          let outputs ← Reader.replicate (readOutput (inputs.flatMap Prod.snd)) outputCount
          return { version := formatEpoch, sigType := sigTypeEd25519, locktimeMs := locks.1, lockheight := locks.2,
                   inputs := inputs.map Prod.fst, outputs } := by
      rw [bind_assoc]
      rfl
    rw [hbytes, hbind, hfields]
    refine (reads_locks _ hfacts.locktime_le hfacts.lockheight_le).bind ?_
    refine (reads_uvarint hfacts.inputs_le (le_u64_of_le_u16 hfacts.inputs_le)).bind ?_
    refine (reads_uvarint hfacts.outputs_le (le_u64_of_le_u16 hfacts.outputs_le)).bind ?_
    refine (Reads.lift (a := ()) (Exn.ensure_of _ hne)).bind (hins.bind ?_)
    rw [hsigners, hmap]
    exact houts.bind (Reads.pure _)
  unfold decompressTemplatePayload requireMaxLen
  rw [Exn.ensure_of _ (templatePayload_fits C tx)]
  have hparse : Reader.parse (do
      let f ← readFields C
      finish
      return f) (templatePayload C tx) = .ok tx.toTransactionFields := hread.parse _
  rw [hparse, lift_ok, Exn.ok_bind, Exn.ok_bind, hmake, lift_ok]

/-- **Payloads**: every transaction has one, not longer than its bytes, and it is read back. -/
theorem templatePayload_roundTrip : ∃ payload, compressTemplatePayload C tx = .ok payload ∧
    payload.length ≤ tx.toBytes.length ∧ decompressTemplatePayload C payload = .ok tx :=
  ⟨templatePayload C tx, compress_eq C tx, length_templatePayload_le C tx, decompress_payload C tx⟩

end Payloads

/-! ## Compressed objects -/

section Objects

variable (C : Crypto) (tx : Transaction)

/-- The object around the code of a payload. -/
def objectOf (code : Bytes) : Bytes :=
  le 2 codecTemplateRange ++ le 4 tx.toBytes.length ++
    le 4 (templateCodecMagic ++ [templateRangeCoderAdaptive] ++ le 4 (templatePayload C tx).length ++ code).length ++
    (templateCodecMagic ++ [templateRangeCoderAdaptive] ++ le 4 (templatePayload C tx).length ++ code)

theorem length_objectOf (code : Bytes) : (objectOf C tx code).length = 19 + code.length := by
  unfold objectOf templateCodecMagic
  simp only [List.length_append, le_length, List.length_cons, List.length_nil]
  omega

/-- **Compressing returns** the object around the code of the payload. -/
theorem compressTx_ok : ∃ code, compressTx C tx = .ok (objectOf C tx code) ∧
    code.length = (codeLength (templatePayload C tx) + 9) / 8 ∧
    (code.length ≤ maxTemplateCompressedBytes →
      rangeDecode code (templatePayload C tx).length = .ok (templatePayload C tx)) := by
  have hfacts := tx_facts tx
  obtain ⟨code, hencode, hlen, hdecode⟩ := rangeDecode_rangeEncode (templatePayload_fits C tx)
  refine ⟨code, ?_, hlen, hdecode⟩
  unfold compressTx require
  rw [Exn.ensure_of _ ⟨hfacts.version_eq, hfacts.sigType_eq⟩, Exn.ok_bind, Exn.ensure_of _ hfacts.size_le, Exn.ok_bind,
    compress_eq, Exn.ok_bind, hencode]
  rfl

variable {C tx}

/-- The body of an object gives back the transaction if the decoder admits its length. -/
theorem decompressBody_ok {code : Bytes} (hfits : 9 + code.length ≤ maxTemplateCompressedBytes)
    (hdecode : rangeDecode code (templatePayload C tx).length = .ok (templatePayload C tx)) :
    decompressBody C (templateCodecMagic ++ [templateRangeCoderAdaptive] ++ le 4 (templatePayload C tx).length ++ code) =
      .ok tx := by
  have hpayload := templatePayload_fits C tx
  have hlen : (templatePayload C tx).length < 256 ^ 4 := by
    unfold maxTemplateCompressedBytes maxTxBytes compressedObjectHeaderBytes at hpayload
    omega
  have hread : Reader.parse readBody
      (templateCodecMagic ++ [templateRangeCoderAdaptive] ++ le 4 (templatePayload C tx).length ++ code) =
        .ok ((templatePayload C tx).length, code) := by
    rw [List.append_assoc, List.append_assoc]
    apply Reader.parse_ok.2
    refine ⟨[], ?_⟩
    refine (Reads.take _ rfl).run_bind ?_
    refine (Reads.lift (a := ()) (Exn.ensure_of _ rfl)).run_bind (b := []) ?_
    refine (reads_u8 (n := 1) (by omega)).run_bind ?_
    refine (Reads.lift (a := ()) (Exn.ensure_of _ rfl)).run_bind (b := []) ?_
    refine (Reads.uint _ hlen).run_bind ?_
    refine (Reads.lift (a := ()) (Exn.ensure_of _ hpayload)).run_bind (b := []) ?_
    rfl
  unfold decompressBody requireMaxLen
  rw [Exn.ensure_of]
  · rw [lift_ok, Exn.ok_bind, hread, Exn.ok_bind]
    dsimp only
    rw [hdecode, lift_ok, Exn.ok_bind, decompress_payload]
    rfl
  · simp only [List.length_append, le_length, List.length_cons, List.length_nil, templateCodecMagic]
    omega

/-- An object whose code is not too long is read back. -/
theorem roundTrip_fits (hfits : codeLength (templatePayload C tx) + 2 ≤ 8 * 8183) :
    (compressTx C tx >>= decompressTx C) = .ok tx := by
  have hfacts := tx_facts tx
  obtain ⟨code, hcompress, hlen, hdecode⟩ := compressTx_ok C tx
  have hobject := length_objectOf C tx code
  rw [hcompress, Exn.ok_bind]
  unfold decompressTx requireMaxLen
  have hcode : code.length ≤ 8183 := by omega
  have hmax : (objectOf C tx code).length ≤ maxTemplateCompressedBytes := by
    rw [hobject]
    unfold maxTemplateCompressedBytes maxTxBytes compressedObjectHeaderBytes
    omega
  have hbody : 9 + code.length ≤ maxTemplateCompressedBytes := by omega
  have hraw : tx.toBytes.length < 256 ^ 4 := by
    have hsize := hfacts.size_le
    unfold maxTxBytes at hsize
    omega
  have hcompressed : (templateCodecMagic ++ [templateRangeCoderAdaptive] ++ le 4 (templatePayload C tx).length ++
      code).length < 256 ^ 4 := by
    simp only [List.length_append, le_length, List.length_cons, List.length_nil, templateCodecMagic]
    omega
  have hread : Reads readObject (tx.toBytes.length,
      templateCodecMagic ++ [templateRangeCoderAdaptive] ++ le 4 (templatePayload C tx).length ++ code)
      (objectOf C tx code) := by
    -- the fields in the order in which they are read
    have hbytes : objectOf C tx code = le 2 codecTemplateRange ++ ([] ++ (le 4 tx.toBytes.length ++
        (le 4 (templateCodecMagic ++ [templateRangeCoderAdaptive] ++ le 4 (templatePayload C tx).length ++ code).length ++
          ([] ++ ((templateCodecMagic ++ [templateRangeCoderAdaptive] ++ le 4 (templatePayload C tx).length ++ code) ++
            []))))) := by
      unfold objectOf
      simp only [List.append_assoc, List.nil_append, List.append_nil]
    rw [hbytes]
    refine (Reads.uint _ (by decide)).bind ((Reads.lift (a := ()) (Exn.ensure_of _ rfl)).bind ?_)
    refine (Reads.uint _ hraw).bind ((Reads.uint _ hcompressed).bind ?_)
    refine (Reads.lift (a := ()) (Exn.ensure_of _ hfacts.size_le)).bind ?_
    exact (Reads.take _ rfl).bind (Reads.pure _)
  have hparse : Reader.parse (do
      let object ← readObject
      finish
      return object) (objectOf C tx code) = .ok (tx.toBytes.length,
        templateCodecMagic ++ [templateRangeCoderAdaptive] ++ le 4 (templatePayload C tx).length ++ code) :=
    hread.parse _
  unfold require
  rw [Exn.ensure_of _ hmax, lift_ok, Exn.ok_bind, Exn.ensure_of]
  · rw [Exn.ok_bind, hparse, Exn.ok_bind]
    dsimp only
    rw [decompressBody_ok hbody (hdecode (by omega)), Exn.ok_bind, Exn.ensure_of _ rfl, Exn.ok_bind, hcompress,
      Exn.ok_bind, Exn.ensure_of _ rfl]
    rfl
  · rw [hobject]
    unfold compressedObjectHeaderBytes
    omega

/-- An object whose code is too long is refused before anything is read. -/
theorem roundTrip_long (hlong : 8 * 8183 < codeLength (templatePayload C tx) + 2) :
    (compressTx C tx >>= decompressTx C) = .error (.other (.valueError "data exceeds max length")) := by
  obtain ⟨code, hcompress, hlen, -⟩ := compressTx_ok C tx
  have hobject := length_objectOf C tx code
  have hmax : ¬(objectOf C tx code).length ≤ maxTemplateCompressedBytes := by
    rw [hobject]
    unfold maxTemplateCompressedBytes maxTxBytes compressedObjectHeaderBytes
    omega
  rw [hcompress, Exn.ok_bind]
  unfold decompressTx requireMaxLen
  rw [Exn.ensure_not _ hmax]
  rfl

/-- **A compressed transaction is read back exactly if** the code of its payload fits: with
the two bits that end it, it may take the bytes that the decoder leaves for it. -/
theorem roundTrip_iff (C : Crypto) (tx : Transaction) :
    (compressTx C tx >>= decompressTx C) = .ok tx ↔ codeLength (templatePayload C tx) + 2 ≤ 8 * 8183 := by
  refine ⟨fun h => ?_, roundTrip_fits⟩
  by_contra hlong
  rw [roundTrip_long (not_le.1 hlong)] at h
  cases h

end Objects

/-! ## A transaction that cannot be read back -/

/-- Every byte once. -/
def allBytes : Bytes := List.finRange 256

/-- Every byte `k` times. -/
def cycle (k : ℕ) : Bytes := (List.replicate k allBytes).flatten

theorem length_cycle (k : ℕ) : (cycle k).length = 256 * k := by
  unfold cycle allBytes
  rw [List.length_flatten, List.map_replicate, List.sum_replicate, List.length_finRange, smul_eq_mul, Nat.mul_comm]

theorem count_cycle (k : ℕ) (b : Byte) : (cycle k).count b = k := by
  have hone : allBytes.count b = 1 := List.count_eq_one_of_mem (List.nodup_finRange 256) (List.mem_finRange b)
  unfold cycle
  rw [List.count_flatten, List.map_replicate, List.sum_replicate, hone, smul_eq_mul, Nat.mul_one]

/-- An input whose witness is made of `k` rounds of all bytes. -/
def cyclingInput (i : Fin 4) (k : Fin 9) : Input :=
  ⟨⟨⟨⟨(allBytes.drop (32 * i + 32)).take 32, by fin_cases i <;> decide⟩, 0x23222120, by decide⟩, txSequenceFinal,
    cycle k⟩, by
    have hlen : (cycle k).length ≤ txWitnessMaxBytes := by
      rw [length_cycle]
      unfold txWitnessMaxBytes
      omega
    simp only [InputFields.postInit, requireUint, requireMaxLen, Exn.bind_ok, Exn.ensure_ok]
    exact ⟨(), by decide +revert, (), trivial, hlen⟩⟩

/-- One output to a key. -/
def loneOutput : Output := ⟨⟨1, .pkh, 0, 0, (allBytes.drop 192).take 32⟩, by decide +kernel⟩

def cyclingFields : TransactionFields :=
  ⟨formatEpoch, sigTypeEd25519, 0, 0, [cyclingInput 0 8, cyclingInput 1 8, cyclingInput 2 8, cyclingInput 3 7],
    [loneOutput]⟩

theorem length_cyclingInput (i : Fin 4) (k : Fin 9) : (cyclingInput i k).toBytes.length = 42 + 256 * k := by
  unfold Input.toBytes
  simp only [List.length_append, length_outpoint, le_length]
  have hlen : (cyclingInput i k).witness.length = 256 * k := length_cycle k
  rw [hlen]

/-- A transaction whose witnesses run through all bytes again and again. -/
def cyclingTx : Transaction := ⟨cyclingFields, by
  have hsize : cyclingFields.toBytes.length ≤ maxTxBytes := by
    have houtput : loneOutput.toBytes.length = 60 := by decide +kernel
    unfold cyclingFields TransactionFields.toBytes TransactionFields.layout
    simp only [List.length_append, le_length, List.flatMap_cons, List.flatMap_nil, length_cyclingInput, houtput,
      List.length_nil]
    decide
  simp only [TransactionFields.postInit, requireFormatEpoch, requireSigType, requireUint, Exn.bind_ok, Exn.ensure_ok]
  exact ⟨(), ⟨(), by decide, rfl⟩, (), ⟨(), by decide, rfl⟩, (), by decide, (), by decide, (), by decide, (),
    List.cons_ne_nil _ _, (), by decide, hsize⟩⟩

/-- What stands around the witnesses in the payload. -/
def cyclingRest : Bytes :=
  [0x00, 0x04, 0x01] ++ ((cyclingInput 0 8).previousOutpoint.toBytes ++ [0x00, 0x80, 0x10]) ++
    ((cyclingInput 1 8).previousOutpoint.toBytes ++ [0x00, 0x80, 0x10]) ++
    ((cyclingInput 2 8).previousOutpoint.toBytes ++ [0x00, 0x80, 0x10]) ++
    ((cyclingInput 3 7).previousOutpoint.toBytes ++ [0x00, 0x80, 0x0E]) ++ ([0x01, 0x00] ++ loneOutput.payload ++ [0x00])

theorem cyclingInput_payload {i : Fin 4} {k : Fin 9} (hk : 1 < k.val) : inputPayload (cyclingInput i k) =
    (cyclingInput i k).previousOutpoint.toBytes ++ (0x00 :: (uvarintBytes 10 (256 * k) ++ cycle k)) := by
  have hwitness : (cyclingInput i k).witness = cycle k := rfl
  have hstd : ¬isStandardEd25519Witness (cyclingInput i k).witness := by
    unfold isStandardEd25519Witness ed25519SignatureBytes ed25519PublicKeyBytes
    rw [hwitness, length_cycle]
    omega
  unfold inputPayload
  rw [if_neg hstd, hwitness, length_cycle]

theorem cyclingTx_signers (C : Crypto) : signersOf C cyclingTx = [] := by
  have hnone : ∀ (i : Fin 4) (k : Fin 9), 1 < k.val → signerOf C (cyclingInput i k) = [] := by
    intro i k hk
    have hwitness : (cyclingInput i k).witness = cycle k := rfl
    apply if_neg
    unfold isStandardEd25519Witness ed25519SignatureBytes ed25519PublicKeyBytes
    rw [hwitness, length_cycle]
    omega
  show [cyclingInput 0 8, cyclingInput 1 8, cyclingInput 2 8, cyclingInput 3 7].flatMap (signerOf C) = []
  simp only [List.flatMap_cons, List.flatMap_nil, List.append_nil]
  rw [hnone 0 8 (by decide), hnone 1 8 (by decide), hnone 2 8 (by decide), hnone 3 7 (by decide)]
  rfl

theorem cyclingTx_payload (C : Crypto) : templatePayload C cyclingTx =
    [0x00, 0x04, 0x01] ++
      (((cyclingInput 0 8).previousOutpoint.toBytes ++ ([0x00, 0x80, 0x10] ++ cycle 8)) ++
        (((cyclingInput 1 8).previousOutpoint.toBytes ++ ([0x00, 0x80, 0x10] ++ cycle 8)) ++
          (((cyclingInput 2 8).previousOutpoint.toBytes ++ ([0x00, 0x80, 0x10] ++ cycle 8)) ++
            ((cyclingInput 3 7).previousOutpoint.toBytes ++ ([0x00, 0x80, 0x0E] ++ cycle 7))))) ++
      ([0x01, 0x00] ++ loneOutput.payload ++ [0x00]) := by
  have hinputs : cyclingTx.inputs.flatMap inputPayload = inputPayload (cyclingInput 0 8) ++
      (inputPayload (cyclingInput 1 8) ++ (inputPayload (cyclingInput 2 8) ++ inputPayload (cyclingInput 3 7))) := by
    show [cyclingInput 0 8, cyclingInput 1 8, cyclingInput 2 8, cyclingInput 3 7].flatMap inputPayload = _
    simp only [List.flatMap_cons, List.flatMap_nil, List.append_nil]
  have houtputs : cyclingTx.outputs.flatMap (outputPayload []) = [0x01, 0x00] ++ loneOutput.payload ++ [0x00] := by
    decide +kernel
  have hlong : uvarintBytes 10 (256 * (8 : Fin 9).val) = [0x80, 0x10] := by decide
  have hshort : uvarintBytes 10 (256 * (7 : Fin 9).val) = [0x80, 0x0E] := by decide
  unfold templatePayload
  rw [cyclingTx_signers, hinputs, houtputs, cyclingInput_payload (by decide), cyclingInput_payload (by decide),
    cyclingInput_payload (by decide), cyclingInput_payload (by decide), hlong, hshort]
  rfl

theorem length_cyclingPayload (C : Crypto) : (templatePayload C cyclingTx).length = 8130 := by
  have hpayload : loneOutput.payload.length = 32 := by decide
  rw [cyclingTx_payload]
  simp only [List.length_append, length_outpoint, length_cycle, List.length_cons, List.length_nil, hpayload]

theorem count_cyclingPayload (C : Crypto) (b : Byte) :
    (templatePayload C cyclingTx).count b = 31 + cyclingRest.count b := by
  rw [cyclingTx_payload]
  unfold cyclingRest
  simp only [List.count_append, count_cycle]
  omega

/-- Consecutive numbers multiplied in halves. -/
def rise : ℕ → ℕ → ℕ → ℕ
  | 0, t, n => t.ascFactorial n
  | d + 1, t, n => rise d t (n / 2) * rise d (t + n / 2) (n - n / 2)

theorem rise_eq (d t n : ℕ) : rise d t n = t.ascFactorial n := by
  induction d generalizing t n with
  | zero => rfl
  | succ d ih =>
    rw [rise, ih, ih, Nat.ascFactorial_mul_ascFactorial, Nat.add_sub_cancel' (Nat.div_le_self n 2)]

theorem prod_ascend_eq (f : Byte → ℕ) :
    ∏ b, ascend 1 (f b) = ((List.finRange 256).map fun b => ascend 1 (f b)).prod := Fin.prod_univ_def _

/-- A code is longer than `n` bits if the counts of the bytes say so. -/
theorem codeLength_gt {data : Bytes} {count : Byte → ℕ} (n size : ℕ) (hsize : data.length = size)
    (hsmall : 256 + size < 2 ^ 15) (hcount : ∀ b, data.count b = count b)
    (hbound : 2 ^ n * 2 ^ 32 * ((List.finRange 256).map fun b => ascend 1 (count b)).prod <
      2 ^ 30 * (2 ^ 15) ^ size * rise 8 256 size) : n < codeLength data := by
  have hfreq : ∀ b, RangeModel.init.freq b = 1 := by
    intro b
    unfold RangeModel.freq RangeModel.init
    have hget := List.getElem?_replicate_of_lt (a := 1) b.isLt
    dsimp only
    rw [List.getD_eq_getElem?_getD]
    exact congrArg (·.getD 0) hget
  have hspan : rangeCodeFull - 1 - 0 + 1 = 2 ^ 32 := by decide
  have htotal : RangeModel.init.total = 256 := rfl
  have hroom : RangeModel.init.total + data.length < 2 ^ 15 := by
    rw [hsize, htotal]
    exact hsmall
  have hge := codeBits_ge init_settled RangeModel.init_ok hroom
  simp only [hfreq, hcount] at hge
  rw [hsize, htotal, prod_ascend_eq, ← rise_eq 8, hspan] at hge
  by_contra hle
  have hpow : 2 ^ codeLength data ≤ 2 ^ n := Nat.pow_le_pow_right (by omega) (not_lt.1 hle)
  have hcontra := hge.trans (Nat.mul_le_mul_right _ (Nat.mul_le_mul_right _ hpow))
  exact absurd hbound (not_lt.2 hcontra)

/-- The frequencies say that the code is too long. -/
theorem cycling_bound : 2 ^ 65462 * 2 ^ 32 * ((List.finRange 256).map fun b => ascend 1 (31 + cyclingRest.count b)).prod <
    2 ^ 30 * (2 ^ 15) ^ 8130 * rise 8 256 8130 := by
  decide +kernel

theorem cycling_long (C : Crypto) : 8 * 8183 < codeLength (templatePayload C cyclingTx) + 2 := by
  have hgt := codeLength_gt 65462 8130 (length_cyclingPayload C) (by decide) (count_cyclingPayload C) cycling_bound
  omega

/-- Compressing this transaction gives an object that the decoder refuses. -/
theorem roundTrip_cycling : (compressTx sampleCrypto cyclingTx >>= decompressTx sampleCrypto) ≠ .ok cyclingTx := by
  rw [roundTrip_long (cycling_long sampleCrypto)]
  intro h
  cases h

end TemplateCodec

end TensorPow
