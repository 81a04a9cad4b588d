import TensorPow.Spec.Wallet
import TensorPow.Proof.Codec
import TensorPow.Proof.Mempool

/-!
# What a signature commits to

The signature hash is taken of a layout of its own, with every witness left out.

* `layout_emptyWitness`: that layout is the one of `without_witnesses()`.
* `SameButWitnesses`: equality in all the fields a signature covers.
* `sighash_inj`: equal signature hashes are of the same index and the same fields.
* `signTransaction_ok`: what a wallet signs verifies.
-/

namespace TensorPow

open Wire Exn

/-! ## Emptied witnesses -/

/-- The fields of an input a signature covers. -/
def InputFields.covered (i : InputFields) : Outpoint × ℕ := (i.previousOutpoint, i.sequence)

/-- The input with its witness emptied. -/
def Input.bare (i : Input) : Input where
  toInputFields := { i.toInputFields with witness := [] }
  valid := by
    have hvalid := i.valid
    simp only [InputFields.postInit, requireUint, requireMaxLen, bind_ok, ensure_ok] at hvalid ⊢
    obtain ⟨u, hsequence, v, hfinal, -⟩ := hvalid
    exact ⟨u, hsequence, v, hfinal, Nat.zero_le _⟩

@[simp] theorem Input.covered_bare (i : Input) : i.bare.covered = i.covered := rfl

@[simp] theorem Input.witness_bare (i : Input) : i.bare.witness = [] := rfl

theorem Input.toBytes_eq (i : Input) :
    i.toBytes = i.previousOutpoint.toBytes ++ le 4 i.sequence ++ le 2 i.witness.length ++ i.witness := rfl

/-- The second serializer writes an input as the first one does after its witness is emptied. -/
theorem emptyWitness_eq (i : Input) : Transaction.emptyWitness i = i.bare.toBytes := by
  rw [Input.toBytes_eq, Input.witness_bare, List.append_nil]
  rfl

theorem Input.length_toBytes (i : Input) : i.toBytes.length = i.bare.toBytes.length + i.witness.length := by
  rw [Input.toBytes_eq, Input.toBytes_eq]
  simp only [List.length_append, le_length, witness_bare, List.length_nil]
  rfl

/-- Inputs that agree on what a signature covers are the same without their witnesses. -/
theorem Input.bare_eq_iff {i j : Input} : i.bare = j.bare ↔ i.covered = j.covered := by
  constructor
  · intro h
    have hfields : i.bare.covered = j.bare.covered := by rw [h]
    exact hfields
  · intro h
    obtain ⟨⟨a, s, w⟩, hi⟩ := i
    obtain ⟨⟨b, t, v⟩, hj⟩ := j
    cases h
    rfl

/-- The sizes of a list of inputs: what they take without witnesses, and the witnesses. -/
theorem length_flatMap_toBytes (inputs : List Input) : (inputs.flatMap Input.toBytes).length =
    ((inputs.map Input.bare).flatMap Input.toBytes).length + (inputs.map fun i => i.witness.length).sum := by
  induction inputs with
  | nil => rfl
  | cons i inputs ih =>
    have hi := i.length_toBytes
    simp only [List.flatMap_cons, List.map_cons, List.length_append, List.sum_cons]
    omega

namespace TransactionFields

/-- Equal in everything but the witnesses. -/
structure SameButWitnesses (t t' : TransactionFields) : Prop where
  version : t.version = t'.version
  sigType : t.sigType = t'.sigType
  locktimeMs : t.locktimeMs = t'.locktimeMs
  lockheight : t.lockheight = t'.lockheight
  inputs : t.inputs.map (fun i => i.covered) = t'.inputs.map (fun i => i.covered)
  outputs : t.outputs = t'.outputs

theorem SameButWitnesses.symm {t t' : TransactionFields} (h : t.SameButWitnesses t') : t'.SameButWitnesses t :=
  ⟨h.version.symm, h.sigType.symm, h.locktimeMs.symm, h.lockheight.symm, h.inputs.symm, h.outputs.symm⟩

theorem SameButWitnesses.trans {t t' t'' : TransactionFields} (h : t.SameButWitnesses t')
    (h' : t'.SameButWitnesses t'') : t.SameButWitnesses t'' :=
  ⟨h.version.trans h'.version, h.sigType.trans h'.sigType, h.locktimeMs.trans h'.locktimeMs,
    h.lockheight.trans h'.lockheight, h.inputs.trans h'.inputs, h.outputs.trans h'.outputs⟩

/-- The same fields with every witness emptied. -/
def bare (t : TransactionFields) : TransactionFields := { t with inputs := t.inputs.map Input.bare }

theorem bare_same (t : TransactionFields) : t.bare.SameButWitnesses t := by
  refine ⟨rfl, rfl, rfl, rfl, ?_, rfl⟩
  simp [bare, Function.comp_def]

theorem bare_inputs_iff {l l' : List Input} :
    l.map Input.bare = l'.map Input.bare ↔ l.map (fun i => i.covered) = l'.map (fun i => i.covered) := by
  induction l generalizing l' with
  | nil => cases l' <;> simp
  | cons i l ih =>
    cases l' with
    | nil => simp
    | cons j l' => simp only [List.map_cons, List.cons.injEq, ih, Input.bare_eq_iff]

theorem bare_eq_iff {t t' : TransactionFields} : t.bare = t'.bare ↔ t.SameButWitnesses t' := by
  constructor
  · intro h
    have hsame := t.bare_same.symm
    rw [h] at hsame
    exact hsame.trans t'.bare_same
  · intro h
    have hinputs := bare_inputs_iff.2 h.inputs
    unfold bare
    rw [hinputs, h.version, h.sigType, h.locktimeMs, h.lockheight, h.outputs]

theorem layout_emptyWitness (t : TransactionFields) : t.layout Transaction.emptyWitness = t.bare.toBytes := by
  have hinputs : t.inputs.flatMap Transaction.emptyWitness = (t.inputs.map Input.bare).flatMap Input.toBytes := by
    rw [List.flatMap_map]
    exact List.flatMap_congr fun i _ => emptyWitness_eq i
  unfold toBytes layout
  rw [hinputs]
  simp only [bare, List.length_map]

/-- A transaction is longer than its bare one by its witnesses. -/
theorem length_toBytes (t : TransactionFields) :
    t.toBytes.length = t.bare.toBytes.length + (t.inputs.map fun i => i.witness.length).sum := by
  have hinputs := length_flatMap_toBytes t.inputs
  unfold toBytes layout
  simp only [bare, List.length_append, le_length, List.length_map]
  omega

/-- Fields that agree but for the witnesses pass the checks together, as long as the size allows. -/
theorem SameButWitnesses.postInit {t t' : TransactionFields} (h : t.SameButWitnesses t') (hvalid : t'.postInit = .ok ())
    (hsize : t.toBytes.length ≤ maxTxBytes) : t.postInit = .ok () := by
  have hlength : t.inputs.length = t'.inputs.length := by simpa using congrArg List.length h.inputs
  simp only [TransactionFields.postInit, bind_ok, requireUint, ensure_ok] at hvalid ⊢
  rw [h.version, h.sigType, h.locktimeMs, h.lockheight, hlength, h.outputs]
  obtain ⟨u₁, hversion, u₂, hsig, u₃, hlocktime, u₄, hlockheight, u₅, hinputs, u₆, hne, u₇, houtputs, -⟩ := hvalid
  exact ⟨u₁, hversion, u₂, hsig, u₃, hlocktime, u₄, hlockheight, u₅, hinputs, u₆, hne, u₇, houtputs, hsize⟩

end TransactionFields

namespace Transaction

variable {C : Crypto}

theorem length_toBytes_le (tx : Transaction) : tx.toBytes.length ≤ maxTxBytes := by
  have hvalid := tx.valid
  simp only [TransactionFields.postInit, bind_ok, ensure_ok] at hvalid
  obtain ⟨-, -, -, -, -, -, -, -, -, -, -, -, -, -, hsize⟩ := hvalid
  exact hsize

/-- The transaction `without_witnesses` builds. -/
def emptied (tx : Transaction) : Transaction where
  toTransactionFields := tx.bare
  valid := by
    refine tx.bare_same.postInit tx.valid ?_
    have hsize := tx.length_toBytes_le
    have hlength := tx.length_toBytes
    omega

theorem withoutWitnesses_eq (tx : Transaction) : tx.withoutWitnesses = .ok tx.emptied := by
  have hinputs : (tx.inputs.mapM fun i => Input.make ⟨i.previousOutpoint, i.sequence, []⟩) =
      .ok (tx.inputs.map Input.bare) := by
    apply mapM_eq_map
    intro i _
    exact Input.make_ok.2 rfl
  unfold withoutWitnesses
  rw [hinputs, ok_bind]
  exact make_ok.2 rfl

/-! ## The signature hash -/

/-- The index of an input fits in its four bytes. -/
theorem index_lt {tx : Transaction} {i : ℕ} (h : i < tx.inputs.length) : i < 256 ^ 4 := by
  have hvalid := tx.valid
  simp only [TransactionFields.postInit, bind_ok, requireUint, ensure_ok] at hvalid
  obtain ⟨-, -, -, -, -, -, -, -, -, hcount, -⟩ := hvalid
  unfold u16Max at hcount
  omega

theorem sighash_ok {tx : Transaction} {i : ℕ} {m : Hash} : tx.sighash C i = .ok m ↔
    i < tx.inputs.length ∧ m = C.domainHash domainTxSighash (tx.bare.toBytes ++ le 4 i) := by
  unfold sighash
  simp only [bind_ok, requireUint, ensure_ok, pure_ok, exists_const, tx.layout_emptyWitness]
  constructor
  · rintro ⟨-, hlt, rfl⟩
    exact ⟨hlt, rfl⟩
  · rintro ⟨hlt, rfl⟩
    have hle := index_lt hlt
    refine ⟨?_, hlt, rfl⟩
    unfold u32Max
    omega

/-- Witnesses do not count. -/
theorem sighash_congr {tx tx' : Transaction} (h : tx.SameButWitnesses tx'.toTransactionFields) (i : ℕ) :
    tx.sighash C i = tx'.sighash C i := by
  have hlength : tx.inputs.length = tx'.inputs.length := by simpa using congrArg List.length h.inputs
  have hbare : tx.bare = tx'.bare := TransactionFields.bare_eq_iff.2 h
  unfold sighash
  rw [tx.layout_emptyWitness, tx'.layout_emptyWitness, hbare, hlength]

/-- Nothing else is left out: the four bytes at the end are the index, and what stands before
them is the encoding of a transaction. -/
theorem sighash_inj {tx tx' : Transaction} {i i' : ℕ} {m : Hash}
    (hinj : Set.InjOn C.hashBytes {domainTxSighash :: (tx.layout emptyWitness ++ le 4 i),
      domainTxSighash :: (tx'.layout emptyWitness ++ le 4 i')})
    (h : tx.sighash C i = .ok m) (h' : tx'.sighash C i' = .ok m) :
    i = i' ∧ tx.SameButWitnesses tx'.toTransactionFields := by
  obtain ⟨hlt, hm⟩ := sighash_ok.1 h
  obtain ⟨hlt', hm'⟩ := sighash_ok.1 h'
  rw [tx.layout_emptyWitness, tx'.layout_emptyWitness] at hinj
  have hpre := hinj (by simp) (by simp) (hm.symm.trans hm')
  have happend := (List.cons.inj hpre).2
  obtain ⟨hbytes, hindex⟩ := List.append_inj' happend (by simp)
  have hemptied : tx.emptied = tx'.emptied := toBytes_injective hbytes
  refine ⟨le_inj (index_lt hlt) (index_lt hlt') hindex, ?_⟩
  exact TransactionFields.bare_eq_iff.1 (congrArg Transaction.toTransactionFields hemptied)

end Transaction

/-! ## Signed transactions -/

/-- A witness that satisfies a public key hash does so under any locks that are mature. -/
theorem verifyTemplate_locks {C : Crypto} {payload witness message : Bytes} {sigType locktimeMs lockheight time height : ℕ}
    (h : verifyTemplate C .pkh payload witness message sigType 0 0 0 0 = true)
    (hlocks : checkLocks locktimeMs lockheight time height = .ok ()) :
    verifyTemplate C .pkh payload witness message sigType locktimeMs lockheight time height = true := by
  unfold verifyTemplate at h ⊢
  obtain ⟨hcheck, hwitness, hsig, -, hbody⟩ := guarded_true.1 h
  exact guarded_true.2 ⟨hcheck, hwitness, hsig, hlocks, hbody⟩

/-- An output locked to a public key hash is spent by whatever satisfies the hash. -/
theorem verifyUtxoSpend_pkh {C : Crypto} {utxo : UTXO} {owner m : Hash} {witness : Bytes} {sigType time height : ℕ}
    (htemplate : utxo.template = .pkh) (howner : utxo.ownerPubkeyHash = owner)
    (hlocks : checkLocks utxo.locktimeMs utxo.lockheight time height = .ok ())
    (h : verifyTemplate C .pkh owner.bytes witness m.bytes sigType 0 0 0 0 = true) :
    verifyUtxoSpend C utxo witness m sigType time height = true := by
  unfold verifyUtxoSpend
  rw [if_pos htemplate, htemplate, howner]
  exact verifyTemplate_locks h hlocks

namespace Wallet

variable {S : Signer} {C : Crypto} {w : Wallet S} {unsigned signed : Transaction}

theorem length_publicKey (w : Wallet S) : w.publicKey.length = ed25519PublicKeyBytes := by
  have hvalid := w.valid
  simp only [WalletFields.postInit, bind_ok, ensure_ok] at hvalid
  obtain ⟨-, -, -, hlength, -⟩ := hvalid
  exact hlength

theorem ownerPubkeyHash_eq (w : Wallet S) :
    w.ownerPubkeyHash C = .ok (C.domainHash domainAddress w.publicKey) := by
  unfold ownerPubkeyHash pubkeyHash
  rw [ensure_of _ w.length_publicKey]
  rfl

theorem wrapSigned_ok {x : Except PyError Transaction} {tx : Transaction} : wrapSigned x = .ok tx ↔ x = .ok tx := by
  unfold wrapSigned
  split
  · constructor <;> intro h <;> cases h
  · exact Iff.rfl

/-- One round of the loop: the witness is checked before it is put in place. -/
theorem signInput_ok {base : Transaction} {p : Input × ℕ} {i : Input} (h : w.signInput C base p = .ok i) :
    i.covered = p.1.covered ∧ ∃ m, base.sighash C p.2 = .ok m ∧
      verifyTemplate C .pkh (C.domainHash domainAddress w.publicKey).bytes i.witness m.bytes base.sigType 0 0 0 0 = true := by
  unfold signInput at h
  rw [w.ownerPubkeyHash_eq] at h
  obtain ⟨m, hm, h⟩ := bind_ok.1 h
  rw [ok_bind] at h
  obtain ⟨u, hverify, h⟩ := bind_ok.1 h
  have hi := Input.make_ok.1 h
  have hcovered : i.covered = p.1.covered := by
    rw [InputFields.covered, hi]
    rfl
  have hwitness : i.witness = S.sign m.bytes w.privateKey ++ w.publicKey := by rw [hi]
  refine ⟨hcovered, m, hm, ?_⟩
  rw [hwitness]
  exact ensure_ok.1 hverify

/-- What the loop did at each position. -/
theorem signInputs_at {base : Transaction} {inputs : List Input}
    (h : base.inputs.zipIdx.mapM (w.signInput C base) = .ok inputs) {k : ℕ} {i : Input} (hk : inputs[k]? = some i) :
    ∃ j, base.inputs[k]? = some j ∧ w.signInput C base (j, k) = .ok i := by
  have hloop := mapM_ok_iff.1 h
  have hlt : k < inputs.length := (List.getElem?_eq_some_iff.1 hk).1
  have hlength : base.inputs.length = inputs.length := by simpa using hloop.length_eq
  have hlt' : k < base.inputs.length := by omega
  have hround := hloop.get (i := k) (by simpa using hlt') hlt
  refine ⟨base.inputs[k], List.getElem?_eq_getElem hlt', ?_⟩
  have hi : inputs[k] = i := (List.getElem?_eq_some_iff.1 hk).2
  simpa [hi] using hround

/-- The loop touches the witnesses only. -/
theorem signInputs_same {base : Transaction} {inputs : List Input}
    (h : base.inputs.zipIdx.mapM (w.signInput C base) = .ok inputs) :
    TransactionFields.SameButWitnesses { base.toTransactionFields with inputs } base.toTransactionFields := by
  refine ⟨rfl, rfl, rfl, rfl, ?_, rfl⟩
  have hlength : inputs.length = base.inputs.length := by simpa using (mapM_ok_iff.1 h).length_eq.symm
  apply List.ext_getElem
  · simp [hlength]
  · intro k hk hk'
    have hlt : k < inputs.length := by simpa using hk
    obtain ⟨j, hj, hround⟩ := signInputs_at h (List.getElem?_eq_getElem hlt)
    have hcovered := (signInput_ok hround).1
    obtain ⟨hlt', rfl⟩ := List.getElem?_eq_some_iff.1 hj
    simpa using hcovered

/-- A signed transaction differs from the one to sign in its witnesses only, so its own
signature hashes are those that were signed. -/
theorem signTransaction_ok (h : w.signTransaction C unsigned = .ok signed) :
    signed.SameButWitnesses unsigned.toTransactionFields ∧ signed.inputs ≠ [] ∧
      ∀ p ∈ signed.inputs.zipIdx, ∃ m, signed.sighash C p.2 = .ok m ∧
        verifyTemplate C .pkh (C.domainHash domainAddress w.publicKey).bytes p.1.witness m.bytes signed.sigType 0 0 0 0 =
          true := by
  unfold signTransaction at h
  obtain ⟨u, hne, h⟩ := bind_ok.1 h
  rw [unsigned.withoutWitnesses_eq, ok_bind] at h
  obtain ⟨inputs, hinputs, h⟩ := bind_ok.1 h
  have hsigned := Transaction.make_ok.1 (wrapSigned_ok.1 h)
  have hbase : signed.SameButWitnesses unsigned.emptied.toTransactionFields := by
    rw [hsigned]
    exact signInputs_same hinputs
  have hsame : signed.SameButWitnesses unsigned.toTransactionFields := hbase.trans unsigned.bare_same
  refine ⟨hsame, ?_, ?_⟩
  · intro hnil
    have hempty := hsame.inputs
    rw [hnil, List.map_nil, eq_comm, List.map_eq_nil_iff] at hempty
    exact ensure_ok.1 hne hempty
  · rintro ⟨i, k⟩ hp
    have hk : signed.inputs[k]? = some i := List.mem_zipIdx_iff_getElem?.1 hp
    rw [hsigned] at hk
    obtain ⟨j, -, hround⟩ := signInputs_at hinputs hk
    obtain ⟨-, m, hm, hverify⟩ := signInput_ok hround
    refine ⟨m, (Transaction.sighash_congr hbase k).trans hm, ?_⟩
    rw [hbase.sigType]
    exact hverify

/-- A signer whose signatures verify under the wallet's own key, as Ed25519 is specified. -/
def Signs (w : Wallet S) (C : Crypto) : Prop :=
  ∀ m, (S.sign m w.privateKey).length = ed25519SignatureBytes ∧ C.verify w.publicKey m (S.sign m w.privateKey) = true

/-- A wallet's own signature satisfies its own template. -/
theorem Signs.verifies (h : w.Signs C) {m : Bytes} {sigType : ℕ} (hsig : requireSigType sigType = .ok ()) :
    verifyTemplate C .pkh (C.domainHash domainAddress w.publicKey).bytes
      (S.sign m w.privateKey ++ w.publicKey) m sigType 0 0 0 0 = true := by
  obtain ⟨hlength, hverify⟩ := h m
  have hkey := w.length_publicKey
  have htype : sigType = sigTypeEd25519 := by
    simp only [requireSigType, bind_ok, ensure_ok] at hsig
    obtain ⟨-, -, htype⟩ := hsig
    exact htype
  have htake : (S.sign m w.privateKey ++ w.publicKey).take ed25519SignatureBytes = S.sign m w.privateKey := by
    rw [← hlength, List.take_left]
  have hdrop : (S.sign m w.privateKey ++ w.publicKey).drop ed25519SignatureBytes = w.publicKey := by
    rw [← hlength, List.drop_left]
  have hwitness : (S.sign m w.privateKey ++ w.publicKey).length = ed25519SignatureBytes + ed25519PublicKeyBytes := by
    rw [List.length_append, hlength, hkey]
  unfold verifyTemplate
  refine guarded_true.2 ⟨?_, ?_, hsig, ?_, ?_⟩
  · exact ensure_of _ (FixedBytes.length_bytes _)
  · refine ensure_of _ ?_
    rw [hwitness]
    decide
  · decide
  · unfold verifyPkh
    have howner : pubkeyHash C w.publicKey = .ok (C.domainHash domainAddress w.publicKey) := w.ownerPubkeyHash_eq
    simp only [hwitness, htake, hdrop, howner, verifySignatureBytes, hlength, hkey, htype, hverify, ne_eq,
      not_true_eq_false, if_false, ok_bind]
    rfl

theorem signInput_returns (h : w.Signs C) {base : Transaction} {p : Input × ℕ} (hp : p ∈ base.inputs.zipIdx) :
    ∃ i, w.signInput C base p = .ok i ∧ i.witness.length = ed25519SignatureBytes + ed25519PublicKeyBytes := by
  obtain ⟨m, hm⟩ := sighash_returns (C := C) hp
  have hsig : requireSigType base.sigType = .ok () := by
    have hvalid := base.valid
    simp only [TransactionFields.postInit, bind_ok] at hvalid
    obtain ⟨-, -, v, hsig, -⟩ := hvalid
    exact hsig
  have hlength : (S.sign m.bytes w.privateKey ++ w.publicKey).length = ed25519SignatureBytes + ed25519PublicKeyBytes := by
    rw [List.length_append, (h m.bytes).1, w.length_publicKey]
  have hvalid := p.1.valid
  simp only [InputFields.postInit, requireUint, requireMaxLen, bind_ok, ensure_ok] at hvalid
  obtain ⟨u, hsequence, v, hfinal, -⟩ := hvalid
  have hinput : (⟨p.1.previousOutpoint, p.1.sequence, S.sign m.bytes w.privateKey ++ w.publicKey⟩ :
      InputFields).postInit = .ok () := by
    simp only [InputFields.postInit, requireUint, requireMaxLen, bind_ok, ensure_ok]
    refine ⟨u, hsequence, v, hfinal, ?_⟩
    rw [hlength]
    decide
  refine ⟨⟨_, hinput⟩, ?_, hlength⟩
  unfold signInput
  rw [hm, ok_bind, w.ownerPubkeyHash_eq, ok_bind, ensure_of _ (h.verifies hsig), ok_bind]
  exact Input.make_ok.2 rfl

/-- A wallet signs every transaction with inputs that leaves room for its witnesses. -/
theorem signTransaction_returns (h : w.Signs C) (hne : unsigned.inputs ≠ [])
    (hsize : unsigned.bare.toBytes.length +
      unsigned.inputs.length * (ed25519SignatureBytes + ed25519PublicKeyBytes) ≤ maxTxBytes) :
    ∃ signed, w.signTransaction C unsigned = .ok signed := by
  have hrounds : ∀ p ∈ unsigned.emptied.inputs.zipIdx, ∃ i, w.signInput C unsigned.emptied p = .ok i := by
    intro p hp
    obtain ⟨i, hi, -⟩ := signInput_returns h hp
    exact ⟨i, hi⟩
  obtain ⟨inputs, hinputs⟩ := mapM_returns hrounds
  have hsame := signInputs_same hinputs
  -- every witness is one signature and one key long
  have hwitness : ∀ n ∈ inputs.map fun i => i.witness.length, n = ed25519SignatureBytes + ed25519PublicKeyBytes := by
    intro n hn
    obtain ⟨i, hi, rfl⟩ := List.mem_map.1 hn
    obtain ⟨p, hp, hround⟩ := (mapM_ok_mem hinputs).2 i hi
    obtain ⟨i', hi', hlength⟩ := signInput_returns h hp
    rw [hround] at hi'
    cases hi'
    exact hlength
  have hcount : inputs.length = unsigned.inputs.length := by
    simpa [Transaction.emptied, TransactionFields.bare] using congrArg List.length hsame.inputs
  have hsum := List.sum_eq_card_nsmul _ _ hwitness
  rw [List.length_map, hcount, smul_eq_mul] at hsum
  have hbare := TransactionFields.bare_eq_iff.2 (hsame.trans unsigned.bare_same)
  have hlength := TransactionFields.length_toBytes { unsigned.emptied.toTransactionFields with inputs }
  rw [hbare, hsum] at hlength
  have hvalid := hsame.postInit unsigned.emptied.valid (by omega)
  refine ⟨⟨_, hvalid⟩, ?_⟩
  unfold signTransaction
  rw [ensure_of _ hne, ok_bind, unsigned.withoutWitnesses_eq, ok_bind, hinputs, ok_bind]
  exact wrapSigned_ok.2 (Transaction.make_ok.2 rfl)

end Wallet

/-- **A signature hash commits to everything but the witnesses.** It does not change with the
witnesses, it is the hash of the encoding without witnesses and the index, and where hashing
does not collide it determines the index and every field but the witnesses. So what a wallet
signs verifies under the hashes of the signed transaction, at any output of its key whose
locks are mature, and a wallet whose signatures verify signs whatever leaves them room. -/
theorem sighash_commits (C : Crypto) :
    (∀ t t' : Transaction, t.SameButWitnesses t'.toTransactionFields → ∀ i, t.sighash C i = t'.sighash C i) ∧
    (∀ t : Transaction, ∃ bare, t.withoutWitnesses = .ok bare ∧ bare.SameButWitnesses t.toTransactionFields ∧
      (∀ x ∈ bare.inputs, x.witness = []) ∧
      ∀ i < t.inputs.length, t.sighash C i = .ok (C.domainHash domainTxSighash (bare.toBytes ++ le 4 i))) ∧
    (∀ (t t' : Transaction) (i i' : ℕ) (m : Hash),
      Set.InjOn C.hashBytes {domainTxSighash :: (t.layout Transaction.emptyWitness ++ le 4 i),
        domainTxSighash :: (t'.layout Transaction.emptyWitness ++ le 4 i')} →
      t.sighash C i = .ok m → t'.sighash C i' = .ok m → i = i' ∧ t.SameButWitnesses t'.toTransactionFields) ∧
    ∀ (S : Signer) (w : Wallet S) (unsigned : Transaction),
      (∀ signed, w.signTransaction C unsigned = .ok signed →
        signed.SameButWitnesses unsigned.toTransactionFields ∧ signed.inputs ≠ [] ∧
        ∃ owner, w.ownerPubkeyHash C = .ok owner ∧ ∀ p ∈ signed.inputs.zipIdx, ∃ m, signed.sighash C p.2 = .ok m ∧
          verifyTemplate C .pkh owner.bytes p.1.witness m.bytes signed.sigType 0 0 0 0 = true ∧
          ∀ (utxo : UTXO) (time height : ℕ), utxo.template = .pkh → utxo.ownerPubkeyHash = owner →
            checkLocks utxo.locktimeMs utxo.lockheight time height = .ok () →
            verifyUtxoSpend C utxo p.1.witness m signed.sigType time height = true) ∧
      (w.Signs C → unsigned.inputs ≠ [] →
        (unsigned.layout Transaction.emptyWitness).length +
          unsigned.inputs.length * (ed25519SignatureBytes + ed25519PublicKeyBytes) ≤ maxTxBytes →
        ∃ signed, w.signTransaction C unsigned = .ok signed) := by
  refine ⟨fun t t' h i => Transaction.sighash_congr h i, ?_, fun t t' i i' m => Transaction.sighash_inj, ?_⟩
  · intro t
    refine ⟨t.emptied, t.withoutWitnesses_eq, t.bare_same, ?_, fun i hi => Transaction.sighash_ok.2 ⟨hi, rfl⟩⟩
    intro x hx
    obtain ⟨i, -, rfl⟩ := List.mem_map.1 hx
    exact i.witness_bare
  · intro S w unsigned
    constructor
    · intro signed h
      obtain ⟨hsame, hne, hverifies⟩ := Wallet.signTransaction_ok h
      refine ⟨hsame, hne, _, w.ownerPubkeyHash_eq, fun p hp => ?_⟩
      obtain ⟨m, hm, hverify⟩ := hverifies p hp
      exact ⟨m, hm, hverify, fun utxo time height htemplate howner hlocks =>
        verifyUtxoSpend_pkh htemplate howner hlocks hverify⟩
    · intro hsigns hne hsize
      rw [unsigned.layout_emptyWitness] at hsize
      exact Wallet.signTransaction_returns hsigns hne hsize

/-- A signer that signs everything with zeros. -/
def zeroSigner : Signer := ⟨fun _ => List.replicate 32 0, fun _ _ => List.replicate 64 0⟩

/-- The wallet of the zero seed. -/
def zeroWallet : Wallet zeroSigner := ⟨⟨List.replicate 32 0, List.replicate 32 0⟩, by decide⟩

/-- An input that spends the first output of the zero hash. -/
def zeroInput : Input := ⟨⟨⟨FixedBytes.zero 32, 0, Nat.zero_le _⟩, txSequenceFinal, []⟩, by decide⟩

/-- A transaction to sign. -/
def zeroSpend : Transaction := ⟨⟨0, 0, 0, 0, [zeroInput], [unitReward]⟩, by decide +kernel⟩

/-- The transaction is signed, and one that differs in its locktime has another hash. -/
theorem sighash_commits_zeroSpend :
    (∃ signed, zeroWallet.signTransaction sampleCrypto zeroSpend = .ok signed) ∧
      zeroSpend.sighash sampleCrypto 0 ≠
        (⟨⟨0, 0, 1, 0, [zeroInput], [unitReward]⟩, by decide +kernel⟩ : Transaction).sighash sampleCrypto 0 := by
  have hcommits := (sighash_commits sampleCrypto).2.2
  constructor
  · refine (hcommits.2 zeroSigner zeroWallet zeroSpend).2 (fun m => ⟨rfl, rfl⟩) (by decide) ?_
    decide +kernel
  · intro heq
    have hm : zeroSpend.sighash sampleCrypto 0 = .ok (sampleCrypto.domainHash domainTxSighash
      (zeroSpend.layout Transaction.emptyWitness ++ le 4 0)) := by decide +kernel
    have hlocktime := (hcommits.1 _ _ 0 0 _ ?_ hm (heq.symm.trans hm)).2.locktimeMs
    · cases hlocktime
    · intro b hb b' hb' hhash
      rcases hb with rfl | rfl
      · rcases hb' with rfl | rfl
        · rfl
        · exact absurd hhash (by decide +kernel)
      · rcases hb' with rfl | rfl
        · exact absurd hhash (by decide +kernel)
        · rfl

end TensorPow
