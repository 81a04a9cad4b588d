import TensorPow.Proof.Outputs
import TensorPow.Proof.Template

/-!
# The three validators of template payloads

A payload is checked when an output is built, when it is spent, and when a transaction is
compressed. The three functions are written apart.

* `parseMultisigPayload_iff`: the multisig checks of the transaction and of the script agree.
* `inferInnerTemplate_ok`: what a hashlock is taken to wrap.
* `validators_agree`: an output that can be built can be validated and compressed.
-/

namespace TensorPow

open Wire Exn

theorem parseMultisigPayload_iff {payload : Bytes} :
    (∃ r, parseMultisigPayload payload = .ok r) ↔ requireMultisigPayload payload = .ok () := by
  rcases payload with _ | ⟨threshold, _ | ⟨pubkeyCount, keys⟩⟩
  · simp [parseMultisigPayload, requireMultisigPayload]
  · simp [parseMultisigPayload, requireMultisigPayload]
  · simp only [parseMultisigPayload, requireMultisigPayload, bind_ok, ensure_ok, pure_ok]
    constructor
    · rintro ⟨r, u, hcount, v, hthreshold, x, hlength, y, hdistinct, -⟩
      exact ⟨u, hcount, v, hthreshold, x, hlength, hdistinct⟩
    · rintro ⟨u, hcount, v, hthreshold, x, hlength, hdistinct⟩
      exact ⟨_, u, hcount, v, hthreshold, x, hlength, (), hdistinct, rfl⟩

/-- What the transaction takes a wrapped payload to be. -/
def innerOf (payload : Bytes) : InnerTemplate := if payload.length = hashLenBytes then .pkh else .multisig

/-- **Both sides wrap the same template.** -/
theorem inferInnerTemplate_ok {payload : Bytes} {inner : InnerTemplate} :
    inferInnerTemplate payload = .ok inner ↔
      requireInnerTemplatePayload payload = .ok () ∧ inner = innerOf payload := by
  unfold inferInnerTemplate requireInnerTemplatePayload innerOf
  by_cases hlength : payload.length = hashLenBytes
  · simp only [if_pos hlength, Except.ok.injEq, true_and]
    exact eq_comm
  · simp only [if_neg hlength]
    rw [← parseMultisigPayload_iff, bind_ok]
    constructor
    · rintro ⟨r, hr, h⟩
      exact ⟨⟨r, hr⟩, (pure_ok.1 h).symm⟩
    · rintro ⟨⟨r, hr⟩, rfl⟩
      exact ⟨r, hr, rfl⟩

theorem validateInnerPayload_innerOf {payload : Bytes} (h : requireInnerTemplatePayload payload = .ok ()) :
    validateInnerPayload (innerOf payload) payload = .ok () := by
  unfold requireInnerTemplatePayload at h
  unfold innerOf
  by_cases hlength : payload.length = hashLenBytes
  · rw [if_pos hlength]
    exact ensure_of _ hlength
  · rw [if_neg hlength] at h ⊢
    obtain ⟨r, hr⟩ := parseMultisigPayload_iff.2 h
    simp only [validateInnerPayload]
    rw [hr]
    rfl

theorem validateTemplatePayload_iff {template : Template} {payload : Bytes} :
    validateTemplatePayload template payload = .ok () ↔ requireTemplatePayload template payload = .ok () := by
  cases template with
  | pkh => simp only [validateTemplatePayload, validateInnerPayload, requireTemplatePayload, ensure_ok]
  | multisig =>
    simp only [validateTemplatePayload, validateInnerPayload, requireTemplatePayload, bind_ok]
    rw [← parseMultisigPayload_iff]
    constructor
    · rintro ⟨r, hr, -⟩
      exact ⟨r, hr⟩
    · rintro ⟨r, hr⟩
      exact ⟨r, hr, rfl⟩
  | hashlock =>
    simp only [validateTemplatePayload, requireTemplatePayload, bind_ok, ensure_ok]
    constructor
    · rintro ⟨u, hlong, inner, hinner, -⟩
      exact ⟨u, hlong, (inferInnerTemplate_ok.1 hinner).1⟩
    · rintro ⟨u, hlong, hinner⟩
      exact ⟨u, hlong, _, inferInnerTemplate_ok.2 ⟨hinner, rfl⟩, validateInnerPayload_innerOf hinner⟩

/-- An unknown template id is refused on both sides. -/
theorem validateTemplatePayloadId_iff {templateId : ℕ} {payload : Bytes} :
    validateTemplatePayloadId templateId payload = .ok () ↔ requireTemplatePayloadId templateId payload = .ok () := by
  unfold validateTemplatePayloadId requireTemplatePayloadId requireUint
  simp only [bind_ok, ensure_ok, validateTemplatePayload_iff]
  constructor
  · rintro ⟨-, -, template, htemplate, h⟩
    exact ⟨template, htemplate, h⟩
  · rintro ⟨template, htemplate, h⟩
    have hactive : templateId ≤ u16Max := by
      unfold Template.ofId at htemplate
      split at htemplate
      · decide
      · decide
      · decide
      · cases htemplate
    exact ⟨(), hactive, template, htemplate, h⟩

/-- The payload that `verify_utxo_spend` checks is the one of the output. -/
theorem spentPayload_eq {txId : Hash} {i m : ℕ} {o : Output} {u : UTXO} (h : utxoOf txId i o m = .ok u) :
    u.template = o.template ∧ (if u.template = .pkh then u.ownerPubkeyHash.bytes else u.payload) = o.payload := by
  obtain ⟨p, -, hu⟩ := bind_ok.1 h
  have hfields := UTXO.make_ok.1 hu
  obtain ⟨-, -, -, htemplate⟩ := TemplateCodec.output_facts o
  rw [hfields]
  refine ⟨rfl, ?_⟩
  by_cases hkind : o.template = .pkh
  · rw [hkind] at htemplate
    have hlength : o.payload.length = hashLenBytes := ensure_ok.1 htemplate
    have hlong : 32 ≤ o.payload.length := hlength.ge
    rw [if_pos hkind]
    unfold ownerOf
    rw [dif_pos ⟨hkind, hlong⟩]
    exact List.take_of_length_le hlength.le
  · rw [if_neg hkind]

theorem encodeOutputPayload_returns (o : Output) {signers : List Bytes} (h : signers.length ≤ u64Max) :
    ∃ b, TemplateCodec.encodeOutputPayload o signers = .ok b := by
  obtain ⟨-, -, -, htemplate⟩ := TemplateCodec.output_facts o
  unfold TemplateCodec.encodeOutputPayload
  cases hkind : o.template with
  | pkh =>
    dsimp only
    cases hindex : signers.findIdx? (· = o.payload) with
    | none => exact ⟨_, rfl⟩
    | some i =>
      obtain ⟨hi, -⟩ := List.findIdx?_eq_some_iff_getElem.1 hindex
      have hmax : i ≤ u64Max := by omega
      dsimp only
      rw [TemplateCodec.uvarint_ok hmax]
      exact ⟨_, rfl⟩
  | multisig => exact ⟨_, rfl⟩
  | hashlock =>
    rw [hkind] at htemplate
    simp only [requireTemplatePayload, bind_ok, ensure_ok] at htemplate
    obtain ⟨-, -, hinner⟩ := htemplate
    dsimp only
    rw [(TemplateCodec.innerPayload_ok hinner).1]
    exact ⟨_, rfl⟩

/-- **The validators agree.** A payload is accepted for an output exactly if it is accepted
for spending, with the same template under a hashlock. So what an output holds passes when it
is spent, and the codec can write it. No list of signers is longer than 64 bits count. -/
theorem validators_agree :
    (∀ templateId payload, payload.length ≤ txOutputPayloadMaxBytes →
      (requireTemplatePayloadId templateId payload = .ok () ↔
        validateTemplatePayloadId templateId payload = .ok ())) ∧
    (∀ payload inner, inferInnerTemplate payload = .ok inner ↔
      requireInnerTemplatePayload payload = .ok () ∧
        inner = if payload.length = hashLenBytes then .pkh else .multisig) ∧
    (∀ o : Output, validateTemplatePayload o.template o.payload = .ok ()) ∧
    (∀ (txId : Hash) (i m : ℕ) (o : Output) (u : UTXO), utxoOf txId i o m = .ok u →
      validateTemplatePayload u.template (if u.template = .pkh then u.ownerPubkeyHash.bytes else u.payload) = .ok ()) ∧
    ∀ (o : Output) (signers : List Bytes), signers.length ≤ u64Max →
      ∃ b, TemplateCodec.encodeOutputPayload o signers = .ok b := by
  have hvalid : ∀ o : Output, validateTemplatePayload o.template o.payload = .ok () := by
    intro o
    obtain ⟨-, -, -, htemplate⟩ := TemplateCodec.output_facts o
    exact validateTemplatePayload_iff.2 htemplate
  refine ⟨?_, ?_, hvalid, ?_, fun o signers => encodeOutputPayload_returns o⟩
  · intro templateId payload _
    exact validateTemplatePayloadId_iff.symm
  · intro payload inner
    exact inferInnerTemplate_ok
  · intro txId i m o u h
    obtain ⟨htemplate, hpayload⟩ := spentPayload_eq h
    rw [hpayload, htemplate]
    exact hvalid o

end TensorPow
