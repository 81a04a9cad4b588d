import TensorPow.Proof.Interpreter
import TensorPow.Proof.Mempool

/-!
# Ordered multisig

The matcher gives each signature the first key that verifies it, and never goes back.

* `verifyOrderedMultisig_iff`: it succeeds exactly if some increasing assignment does.
* `Signed`: as many listed keys as the threshold have signed, in order.
* `multisig_iff`: when a multisig output or an `OP_CHECKMULTISIG` succeeds.
-/

namespace TensorPow

open Wire Exn

/-! ## Increasing assignments -/

section Assignments

variable {α β : Type} {R : α → β → Prop}

/-- Items that are matched within a list are matched without the first of them. -/
theorem sublistForall₂_tail {a : α} {l : List α} {l' : List β} (h : List.SublistForall₂ R (a :: l) l') :
    List.SublistForall₂ R l l' := by
  obtain ⟨m, hm, hsub⟩ := List.sublistForall₂_iff.1 h
  cases hm with
  | cons _ htail => exact List.sublistForall₂_iff.2 ⟨_, htail, (List.sublist_cons_self _ _).trans hsub⟩

/-- A match of a list within another is an increasing assignment of places. -/
theorem sublistForall₂_iff_strictMono {l : List α} {l' : List β} : List.SublistForall₂ R l l' ↔
    ∃ f : Fin l.length → Fin l'.length, StrictMono f ∧ ∀ i, R (l.get i) (l'.get (f i)) := by
  rw [List.sublistForall₂_iff]
  constructor
  · rintro ⟨m, hm, hsub⟩
    obtain ⟨hlen, hget⟩ := List.forall₂_iff_get.1 hm
    obtain ⟨g, hg⟩ := List.sublist_iff_exists_fin_orderEmbedding_get_eq.1 hsub
    refine ⟨fun i => g (Fin.cast hlen i), fun i j hij => g.strictMono hij, fun i => ?_⟩
    rw [← hg]
    exact hget i i.2 (hlen ▸ i.2)
  · rintro ⟨f, hf, hR⟩
    have hlen : (List.ofFn fun i => l'.get (f i)).length = l.length := List.length_ofFn
    refine ⟨List.ofFn fun i => l'.get (f i), List.forall₂_iff_get.2 ⟨hlen.symm, fun i h₁ h₂ => ?_⟩, ?_⟩
    · rw [List.get_ofFn]
      exact hR _
    · refine List.sublist_iff_exists_fin_orderEmbedding_get_eq.2 ⟨OrderEmbedding.ofStrictMono
        (fun i => f (Fin.cast hlen i)) fun i j hij => hf hij, fun i => ?_⟩
      rw [List.get_ofFn]
      rfl

end Assignments

/-! ## The matcher -/

variable {C : Crypto} {sigType : ℕ} {message : Bytes}

/-- A signature verifies under a key. -/
def Verifies (C : Crypto) (sigType : ℕ) (message signature key : Bytes) : Prop :=
  verifySignatureBytes C sigType message signature key = true

/-- What the inner loop leaves is after a key that verifies. -/
theorem keysAfterMatch_some {signature : Bytes} {keys rest : List Bytes}
    (h : keysAfterMatch C sigType message signature keys = some rest) :
    ∃ before key, keys = before ++ key :: rest ∧ Verifies C sigType message signature key := by
  induction keys with
  | nil => cases h
  | cons key keys ih =>
    unfold keysAfterMatch at h
    split at h
    · rename_i hverifies
      cases h
      exact ⟨[], key, rfl, hverifies⟩
    · obtain ⟨before, key', rfl, hverifies⟩ := ih h
      exact ⟨key :: before, key', rfl, hverifies⟩

/-- **The greedy matcher misses nothing.** Taking the first key that verifies leaves at least
the keys that any other match would leave. -/
theorem verifyOrderedMultisig_iff {signatures keys : List Bytes} :
    verifyOrderedMultisig C sigType message signatures keys = true ↔
      List.SublistForall₂ (Verifies C sigType message) signatures keys := by
  induction signatures generalizing keys with
  | nil => exact iff_of_true rfl .nil
  | cons signature signatures ih =>
    unfold verifyOrderedMultisig
    constructor
    · intro h
      split at h
      · cases h
      · rename_i rest hrest
        obtain ⟨before, key, rfl, hverifies⟩ := keysAfterMatch_some hrest
        have hmatch : List.SublistForall₂ (Verifies C sigType message) (signature :: signatures) (key :: rest) :=
          .cons hverifies (ih.1 h)
        -- the keys that were passed over do not matter
        clear hrest
        induction before with
        | nil => exact hmatch
        | cons key' before ihbefore => exact .cons_right ihbefore
    · intro h
      induction keys with
      | nil => cases h
      | cons key keys ihkeys =>
        unfold keysAfterMatch
        by_cases hverifies : verifySignatureBytes C sigType message signature key = true
        · -- the first key verifies: whichever key the match used, the other signatures fit after it
          rw [if_pos hverifies]
          refine ih.2 ?_
          cases h with
          | cons _ htail => exact htail
          | cons_right hrest => exact sublistForall₂_tail hrest
        · rw [if_neg hverifies]
          cases h with
          | cons hhead _ => exact absurd hhead hverifies
          | cons_right hrest => exact ihkeys hrest

/-! ## Templates and opcodes -/

/-- As many listed keys as the threshold, pairwise distinct and in order, have signed. -/
def Signed (C : Crypto) (sigType : ℕ) (message : Bytes) (threshold : ℕ) (keys signatures : List Bytes) : Prop :=
  ∃ signers, signers.Sublist keys ∧ signers.length = threshold ∧ signers.Nodup ∧
    List.Forall₂ (Verifies C sigType message) signatures signers

/-- The listed keys under which some signature verifies. -/
def signersOf (C : Crypto) (sigType : ℕ) (message : Bytes) (keys signatures : List Bytes) : Finset Bytes :=
  keys.toFinset.filter fun key => ∃ signature ∈ signatures, verifySignatureBytes C sigType message signature key = true

theorem verifyOrderedMultisig_signed {threshold : ℕ} {keys signatures : List Bytes} (hkeys : keys.Nodup)
    (hcount : signatures.length = threshold) :
    verifyOrderedMultisig C sigType message signatures keys = true ↔
      Signed C sigType message threshold keys signatures := by
  rw [verifyOrderedMultisig_iff, List.sublistForall₂_iff]
  constructor
  · rintro ⟨signers, hsigned, hsub⟩
    exact ⟨signers, hsub, hsigned.length_eq.symm.trans hcount, hsub.nodup hkeys, hsigned⟩
  · rintro ⟨signers, hsub, -, -, hsigned⟩
    exact ⟨signers, hsigned, hsub⟩

/-- Where the threshold is met, as many distinct keys have signed. -/
theorem Signed.card {threshold : ℕ} {keys signatures : List Bytes}
    (h : Signed C sigType message threshold keys signatures) :
    threshold ≤ (signersOf C sigType message keys signatures).card := by
  obtain ⟨signers, hsub, rfl, hnodup, hsigned⟩ := h
  rw [← List.toFinset_card_of_nodup hnodup]
  refine Finset.card_le_card fun key hkey => ?_
  rw [List.mem_toFinset] at hkey
  refine Finset.mem_filter.2 ⟨List.mem_toFinset.2 (hsub.subset hkey), ?_⟩
  obtain ⟨hlen, hget⟩ := List.forall₂_iff_get.1 hsigned
  obtain ⟨i, hi, rfl⟩ := List.getElem_of_mem hkey
  exact ⟨_, List.get_mem signatures ⟨i, hlen ▸ hi⟩, hget i (hlen ▸ hi) hi⟩

theorem parseMultisigPayload_ok {payload : Bytes} {threshold : ℕ} {keys : List Bytes}
    (h : parseMultisigPayload payload = .ok (threshold, keys)) : keys.Nodup := by
  unfold parseMultisigPayload at h
  split at h
  · simp only [Exn.bind_ok, Exn.ensure_ok, Exn.pure_ok] at h
    obtain ⟨-, -, -, -, -, -, -, hnodup, heq⟩ := h
    cases heq
    exact hnodup
  · cases h

theorem length_slices {width count : ℕ} {b : Bytes} (hwidth : 0 < width) (h : b.length = count * width) :
    (slices width b).length = count := by
  unfold slices
  rw [List.length_map, List.length_range, h]
  have hround : count * width + width - 1 = count * width + (width - 1) := by omega
  rw [hround, Nat.add_comm, Nat.add_mul_div_right _ _ hwidth, Nat.div_eq_of_lt (by omega), Nat.zero_add]

/-- **A multisig template** is satisfied exactly if the threshold is met. -/
theorem verifyMultisigTemplate_ok {payload witness : Bytes} :
    verifyMultisigTemplate C payload witness message sigType = .ok true ↔
      ∃ threshold keys, parseMultisigPayload payload = .ok (threshold, keys) ∧
        witness.length = threshold * ed25519SignatureBytes ∧
        Signed C sigType message threshold keys (slices ed25519SignatureBytes witness) := by
  unfold verifyMultisigTemplate
  rw [Exn.bind_ok]
  constructor
  · rintro ⟨⟨threshold, keys⟩, hparse, h⟩
    dsimp only at h
    split at h
    · cases h
    · rename_i hlen
      rw [not_not] at hlen
      refine ⟨threshold, keys, hparse, hlen, ?_⟩
      have hcount := length_slices (by decide) hlen
      exact (verifyOrderedMultisig_signed (parseMultisigPayload_ok hparse) hcount).1 (Exn.pure_ok.1 h)
  · rintro ⟨threshold, keys, hparse, hlen, hsigned⟩
    refine ⟨(threshold, keys), hparse, ?_⟩
    have hcount := length_slices (by decide) hlen
    dsimp only
    rw [if_neg (not_not.2 hlen), (verifyOrderedMultisig_signed (parseMultisigPayload_ok hparse) hcount).2 hsigned]
    rfl

namespace Script

theorem pop_ok {stack rest : List Bytes} {item : Bytes} {name : String} :
    pop stack name = .ok (item, rest) ↔ stack = item :: rest := by
  unfold pop
  cases stack with
  | nil => simp [Exn.bind_ok]
  | cons x stack =>
    rw [Exn.ensure_of _ (List.cons_ne_nil _ _), Exn.ok_bind]
    unfold listPop
    rw [Except.ok.injEq, Prod.mk.injEq, List.cons.injEq]

theorem popMany_ok {n : ℕ} {stack items rest : List Bytes} {name : String} :
    popMany name n stack = .ok (items, rest) ↔ stack = items ++ rest ∧ items.length = n := by
  induction n generalizing stack items with
  | zero =>
    unfold popMany
    rw [Except.ok.injEq, Prod.mk.injEq, List.length_eq_zero_iff]
    constructor
    · rintro ⟨rfl, rfl⟩
      exact ⟨rfl, rfl⟩
    · rintro ⟨rfl, rfl⟩
      exact ⟨rfl, rfl⟩
  | succ n ih =>
    unfold popMany
    rw [Exn.bind_ok]
    constructor
    · rintro ⟨⟨item, below⟩, hpop, h⟩
      obtain ⟨⟨more, rest'⟩, hmore, h⟩ := Exn.bind_ok.1 h
      cases h
      obtain ⟨hbelow, hlen⟩ := ih.1 hmore
      rw [pop_ok.1 hpop, hbelow, List.length_cons, hlen]
      exact ⟨rfl, rfl⟩
    · rintro ⟨rfl, hlen⟩
      obtain ⟨item, more, rfl⟩ := List.exists_cons_of_length_eq_add_one hlen
      rw [List.length_cons, Nat.add_right_cancel_iff] at hlen
      refine ⟨(item, more ++ rest), pop_ok.2 rfl, ?_⟩
      dsimp only
      rw [ih.2 ⟨rfl, hlen⟩]
      rfl

theorem decodeSmallInt_ok {item : Bytes} {name : String} {v : ℕ} :
    decodeSmallInt item name = .ok v ↔ ∃ b : Byte, item = [b] ∧ b.val = v := by
  constructor
  · intro h
    obtain ⟨b, hitem, rfl⟩ := decodeSmallInt_post.of_ok h
    exact ⟨b, hitem, rfl⟩
  · rintro ⟨b, rfl, rfl⟩
    rfl

/-- The stack under an `OP_CHECKMULTISIG`: the number of keys, the keys, the threshold and the
signatures, each list with its last item on top. -/
structure MultisigStack (stack : List Bytes) (keys signatures rest : List Bytes) : Prop where
  layout : ∃ n t : Byte, stack = [n] :: (keys.reverse ++ [t] :: (signatures.reverse ++ rest)) ∧ keys.length = n.val ∧
    signatures.length = t.val
  count : 1 ≤ keys.length ∧ keys.length ≤ multisigMaxKeys
  threshold : 1 ≤ signatures.length ∧ signatures.length ≤ keys.length
  keyBytes : ∀ key ∈ keys, key.length = ed25519PublicKeyBytes
  distinct : keys.Nodup
  signatureBytes : ∀ signature ∈ signatures, signature.length = ed25519SignatureBytes

/-- **An `OP_CHECKMULTISIG` succeeds** exactly on such a stack, if the threshold is met. -/
theorem executeCheckmultisig_ok {context : ScriptContext} {stack rest : List Bytes} :
    executeCheckmultisig C context stack = .ok (true, rest) ↔ ∃ keys signatures,
      MultisigStack stack keys signatures rest ∧
      Signed C context.sigType context.message signatures.length keys signatures := by
  unfold executeCheckmultisig
  constructor
  · intro h
    -- what each pop took off the stack, and what the checks between them say
    obtain ⟨⟨count, stack₁⟩, hcount, h⟩ := Exn.bind_ok.1 h
    obtain ⟨pubkeyCount, hpubkeyCount, h⟩ := Exn.bind_ok.1 h
    obtain ⟨_, hrange, h⟩ := Exn.bind_ok.1 h
    obtain ⟨⟨poppedKeys, stack₂⟩, hkeys, h⟩ := Exn.bind_ok.1 h
    obtain ⟨_, hkeyBytes, h⟩ := Exn.bind_ok.1 h
    obtain ⟨_, hdistinct, h⟩ := Exn.bind_ok.1 h
    obtain ⟨⟨item, stack₃⟩, hitem, h⟩ := Exn.bind_ok.1 h
    obtain ⟨threshold, hthreshold, h⟩ := Exn.bind_ok.1 h
    obtain ⟨_, htrange, h⟩ := Exn.bind_ok.1 h
    obtain ⟨⟨poppedSignatures, stack₄⟩, hsignatures, h⟩ := Exn.bind_ok.1 h
    obtain ⟨_, hsignatureBytes, h⟩ := Exn.bind_ok.1 h
    rw [Exn.ensure_ok] at hrange hkeyBytes hdistinct htrange hsignatureBytes
    obtain ⟨hstack₂, hkeyCount⟩ := popMany_ok.1 hkeys
    obtain ⟨hstack₄, hsigCount⟩ := popMany_ok.1 hsignatures
    obtain ⟨n, hn, hnval⟩ := decodeSmallInt_ok.1 hpubkeyCount
    obtain ⟨t, ht, htval⟩ := decodeSmallInt_ok.1 hthreshold
    rw [Exn.pure_ok, Prod.mk.injEq] at h
    obtain ⟨hverify, rfl⟩ := h
    have hkeysLen : poppedKeys.reverse.length = pubkeyCount := by rw [List.length_reverse, hkeyCount]
    have hsigsLen : poppedSignatures.reverse.length = threshold := by rw [List.length_reverse, hsigCount]
    refine ⟨poppedKeys.reverse, poppedSignatures.reverse, ⟨⟨n, t, ?_, ?_, ?_⟩, ?_, ?_, hkeyBytes, hdistinct,
      hsignatureBytes⟩, ?_⟩
    · rw [pop_ok.1 hcount, hn, hstack₂, pop_ok.1 hitem, ht, hstack₄, List.reverse_reverse, List.reverse_reverse]
    · rw [hkeysLen, hnval]
    · rw [hsigsLen, htval]
    · rw [hkeysLen]
      exact hrange
    · rw [hkeysLen, hsigsLen]
      exact htrange
    · exact (verifyOrderedMultisig_signed hdistinct rfl).1 hverify
  · rintro ⟨keys, signatures, h, hsigned⟩
    -- a stack of that layout passes pop by pop
    obtain ⟨n, t, rfl, hn, ht⟩ := h.layout
    have hkeys : ∀ rest, popMany "OP_CHECKMULTISIG" n.val (keys.reverse ++ rest) = .ok (keys.reverse, rest) := by
      intro rest
      exact popMany_ok.2 ⟨rfl, by rw [List.length_reverse, hn]⟩
    have hsignatures : popMany "OP_CHECKMULTISIG" t.val (signatures.reverse ++ rest) = .ok (signatures.reverse, rest) :=
      popMany_ok.2 ⟨rfl, by rw [List.length_reverse, ht]⟩
    have hrange := h.count
    have htrange := h.threshold
    rw [hn] at hrange htrange
    rw [ht] at htrange
    rw [pop_ok.2 rfl, Exn.ok_bind]
    dsimp only
    rw [decodeSmallInt_ok.2 ⟨n, rfl, rfl⟩, Exn.ok_bind, Exn.ensure_of _ hrange, Exn.ok_bind, hkeys, Exn.ok_bind]
    dsimp only
    rw [List.reverse_reverse, Exn.ensure_of _ h.keyBytes, Exn.ok_bind, Exn.ensure_of _ h.distinct, Exn.ok_bind,
      pop_ok.2 rfl, Exn.ok_bind]
    dsimp only
    rw [decodeSmallInt_ok.2 ⟨t, rfl, rfl⟩, Exn.ok_bind, Exn.ensure_of _ htrange, Exn.ok_bind, hsignatures, Exn.ok_bind]
    dsimp only
    rw [List.reverse_reverse, Exn.ensure_of _ h.signatureBytes, Exn.ok_bind,
      (verifyOrderedMultisig_signed h.distinct rfl).2 hsigned]
    rfl

end Script

/-- **Ordered multisig.** The matcher succeeds exactly if some strictly increasing assignment
of signatures to keys does. So a multisig output can be spent, and an `OP_CHECKMULTISIG`
succeeds, exactly if as many pairwise distinct listed keys as the threshold have signed in the
order of the list, and never if fewer have signed. -/
theorem multisig_iff (C : Crypto) :
    (∀ sigType message signatures keys, verifyOrderedMultisig C sigType message signatures keys = true ↔
      ∃ f : Fin signatures.length → Fin keys.length, StrictMono f ∧
        ∀ i, verifySignatureBytes C sigType message (signatures.get i) (keys.get (f i)) = true) ∧
    (∀ payload witness message sigType locktimeMs lockheight time height,
      verifyTemplate C .multisig payload witness message sigType locktimeMs lockheight time height = true ↔
        requireMaxLen "witness" witness txWitnessMaxBytes = .ok () ∧ requireSigType sigType = .ok () ∧
        checkLocks locktimeMs lockheight time height = .ok () ∧
        ∃ threshold keys, parseMultisigPayload payload = .ok (threshold, keys) ∧
          witness.length = threshold * ed25519SignatureBytes ∧
          Signed C sigType message threshold keys (slices ed25519SignatureBytes witness)) ∧
    (∀ context stack rest, Script.executeCheckmultisig C context stack = .ok (true, rest) ↔
      ∃ keys signatures, Script.MultisigStack stack keys signatures rest ∧
        Signed C context.sigType context.message signatures.length keys signatures) ∧
    ∀ sigType message threshold keys signatures,
      (signersOf C sigType message keys signatures).card < threshold →
        ¬Signed C sigType message threshold keys signatures := by
  refine ⟨?_, ?_, fun context stack rest => Script.executeCheckmultisig_ok, ?_⟩
  · intro sigType message signatures keys
    rw [verifyOrderedMultisig_iff, sublistForall₂_iff_strictMono]
    rfl
  · intro payload witness message sigType locktimeMs lockheight time height
    unfold verifyTemplate
    rw [guarded_true, verifyMultisigTemplate_ok]
    constructor
    · rintro ⟨-, hwitness, hsig, hlocks, h⟩
      exact ⟨hwitness, hsig, hlocks, h⟩
    · rintro ⟨hwitness, hsig, hlocks, threshold, keys, hparse, hlen, hsigned⟩
      -- a payload that can be parsed is one that is well formed
      refine ⟨?_, hwitness, hsig, hlocks, threshold, keys, hparse, hlen, hsigned⟩
      change (parseMultisigPayload payload >>= fun _ => pure ()) = .ok ()
      rw [hparse]
      rfl
  · intro sigType message threshold keys signatures hfew hsigned
    exact absurd hsigned.card (not_le.2 hfew)

end TensorPow
