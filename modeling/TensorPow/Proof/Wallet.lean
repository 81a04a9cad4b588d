import TensorPow.Proof.Address
import TensorPow.Proof.Sighash

/-!
# Payments of a wallet are spends of the node

The wallet selects coins, makes change and signs on its own; the node checks the inputs, the
locks, the scripts and the fee on its own.

* `selectCoins_spec`: the selection is a front of the owned outputs, all of them if it falls
  short.
* `createSignedTransaction_ok`: what a payment that is returned consists of.
* `createSignedTransaction_valid`: a payment passes them.
-/

namespace TensorPow

open Wire Exn Sorted

variable {C : Crypto}

namespace Wallet

variable {S : Signer} {w : Wallet S}

/-! ## Coin selection -/

theorem amountOf_append (l l' : List UTXO) : amountOf (l ++ l') = amountOf l + amountOf l' := by
  unfold amountOf
  rw [List.map_append, List.sum_append]

/-- The loop takes outputs from the front, keeps their amount, and takes all if it falls short. -/
theorem selectCoins_spec (required : ℕ) (owned selected : List UTXO) :
    ∃ front, front <+: owned ∧
      selectCoins required owned selected (amountOf selected) = (selected ++ front, amountOf (selected ++ front)) ∧
      (amountOf (selected ++ front) < required → front = owned) := by
  induction owned generalizing selected with
  | nil => exact ⟨[], List.prefix_rfl, by rw [List.append_nil]; rfl, fun _ => rfl⟩
  | cons utxo rest ih =>
    have hsum : amountOf selected + utxo.amountMatoms = amountOf (selected ++ [utxo]) := by
      rw [amountOf_append]
      simp [amountOf]
    unfold selectCoins
    rw [hsum]
    by_cases henough : required ≤ amountOf (selected ++ [utxo])
    · rw [if_pos henough]
      exact ⟨[utxo], ⟨rest, rfl⟩, rfl, fun hless => absurd hless (by omega)⟩
    · rw [if_neg henough]
      obtain ⟨front, hfront, hselect, hall⟩ := ih (selected ++ [utxo])
      rw [List.append_assoc] at hselect hall
      refine ⟨utxo :: front, List.cons_prefix_cons.2 ⟨rfl, hfront⟩, hselect, ?_⟩
      intro hless
      rw [hall hless]

/-! ## What the wallet owns -/

section Owned

variable {utxos owned : List UTXO} {time height : ℕ}

/-- The outputs of a wallet's own key that can be spent, as it lists them. -/
def spendable (w : Wallet S) (C : Crypto) (utxos : List UTXO) (time height : ℕ) : List UTXO :=
  sortBy (fun u => u.outpoint.toBytes) (utxos.filter fun u =>
    u.template = .pkh ∧ u.ownerPubkeyHash = C.domainHash domainAddress w.publicKey ∧ utxoIsMature u time height)

theorem ownedUtxos_ok : w.ownedUtxos C utxos time height = .ok owned ↔
    time ≤ u64Max ∧ height ≤ u64Max ∧ owned = w.spendable C utxos time height := by
  unfold ownedUtxos requireU64
  simp only [bind_ok, ensure_ok, exists_const, w.ownerPubkeyHash_eq, Except.ok.injEq, exists_eq_left', pure_ok]
  rw [eq_comm]
  rfl

theorem mem_spendable {u : UTXO} : u ∈ w.spendable C utxos time height ↔ u ∈ utxos ∧ u.template = .pkh ∧
    u.ownerPubkeyHash = C.domainHash domainAddress w.publicKey ∧ utxoIsMature u time height := by
  unfold spendable
  rw [mem_sortBy, List.mem_filter, decide_eq_true_eq]

theorem nodup_spendable (h : (utxos.map fun u => u.outpoint).Nodup) :
    ((w.spendable C utxos time height).map fun u => u.outpoint).Nodup := by
  refine ((perm_sortBy _ _).map _).nodup_iff.2 ?_
  exact (List.filter_sublist.map _).nodup h

end Owned

/-! ## What a payment consists of -/

section Payments

variable {unicodeLower : List Char → List Char} {utxos selected : List UTXO} {p : Payment} {tx : Transaction}
  {recipient changeOwner : Hash} {change : ℕ}

theorem wrapBuilt_ok {x : Except PyError Transaction} : wrapBuilt x = .ok tx ↔ x = .ok tx := by
  unfold wrapBuilt
  split
  · constructor <;> intro h <;> cases h
  · exact Iff.rfl

theorem addressHash_ok {name : String} {address : List Char} {h : Hash} : addressHash unicodeLower name address = .ok h ↔
    Address.addressToPubkeyHash unicodeLower address = .ok h := by
  unfold addressHash
  cases haddress : Address.addressToPubkeyHash unicodeLower address with
  | ok h' => simp only [fromAddress, Except.ok.injEq]
  | error e => rcases e with _ | e <;> [skip; cases e] <;> constructor <;> intro h <;> cases h

/-- The address that change goes to. -/
def ChangeTo (w : Wallet S) (C : Crypto) (unicodeLower : List Char → List Char) (p : Payment) (owner : Hash) : Prop :=
  ∃ address, w.changeAddress C unicodeLower p = .ok address ∧ Address.addressToPubkeyHash unicodeLower address = .ok owner

/-- The parts of the transaction to sign. -/
structure Built (p : Payment) (recipient changeOwner : Hash) (selected : List UTXO) (change : ℕ)
    (tx : TransactionFields) : Prop where
  spent : (tx.inputs.map fun i => i.previousOutpoint) = selected.map fun u => u.outpoint
  outputs : (tx.outputs.map fun o => o.toOutputFields) = paymentOutputs p recipient changeOwner change
  locktimeMs : tx.locktimeMs = p.locktimeMs
  lockheight : tx.lockheight = p.lockheight

theorem unsignedTransaction_ok (h : unsignedTransaction p recipient changeOwner selected change = .ok tx) :
    Built p recipient changeOwner selected change tx.toTransactionFields := by
  obtain ⟨outputs, houtputs, h⟩ := bind_ok.1 h
  obtain ⟨inputs, hinputs, h⟩ := bind_ok.1 h
  have hfields := Transaction.make_ok.1 h
  refine ⟨?_, ?_, ?_, ?_⟩
  · rw [hfields, ← List.forall₂_eq_eq_eq, List.forall₂_map_left_iff, List.forall₂_map_right_iff]
    refine (mapM_ok_iff.1 hinputs).flip.imp fun i u hi => ?_
    rw [Input.make_ok.1 hi]
  · rw [hfields, ← List.forall₂_eq_eq_eq, List.forall₂_map_left_iff]
    exact (mapM_ok_iff.1 houtputs).flip.imp fun o f ho => Output.make_ok.1 ho
  · rw [hfields]
  · rw [hfields]

/-- Signing keeps the parts. -/
theorem Built.of_same {t t' : TransactionFields} (h : Built p recipient changeOwner selected change t)
    (hsame : t'.SameButWitnesses t) : Built p recipient changeOwner selected change t' := by
  refine ⟨?_, by rw [hsame.outputs, h.outputs], by rw [hsame.locktimeMs, h.locktimeMs],
    by rw [hsame.lockheight, h.lockheight]⟩
  have hinputs := congrArg (List.map Prod.fst) hsame.inputs
  rw [List.map_map, List.map_map] at hinputs
  exact hinputs.trans h.spent

/-- A payment is built from a front of the spendable outputs, with all of its witnesses valid. -/
structure Paid (w : Wallet S) (C : Crypto) (utxos : List UTXO) (p : Payment) (recipient changeOwner : Hash)
    (selected : List UTXO) (change : ℕ) (tx : Transaction) : Prop where
  time : p.currentTimeMs ≤ u64Max
  height : p.currentHeight ≤ u64Max
  front : selected <+: w.spendable C utxos p.currentTimeMs p.currentHeight
  amount : amountOf selected = p.amountMatoms + p.feeMatoms + change
  built : Built p recipient changeOwner selected change tx.toTransactionFields
  signed : ∀ q ∈ tx.inputs.zipIdx, ∃ m, tx.sighash C q.2 = .ok m ∧
    verifyTemplate C .pkh (C.domainHash domainAddress w.publicKey).bytes q.1.witness m.bytes tx.sigType 0 0 0 0 = true

/-- **What is returned is a payment.** -/
theorem createSignedTransaction_ok (h : w.createSignedTransaction C unicodeLower utxos p = .ok tx) :
    ∃ recipient changeOwner selected change,
      Address.addressToPubkeyHash unicodeLower p.recipientAddress = .ok recipient ∧
      w.ChangeTo C unicodeLower p changeOwner ∧ Paid w C utxos p recipient changeOwner selected change tx := by
  unfold createSignedTransaction at h
  obtain ⟨_, -, h⟩ := bind_ok.1 h
  obtain ⟨_, -, h⟩ := bind_ok.1 h
  obtain ⟨_, -, h⟩ := bind_ok.1 h
  obtain ⟨_, -, h⟩ := bind_ok.1 h
  obtain ⟨_, -, h⟩ := bind_ok.1 h
  obtain ⟨_, -, h⟩ := bind_ok.1 h
  obtain ⟨_, -, h⟩ := bind_ok.1 h
  obtain ⟨recipient, hrecipient, h⟩ := bind_ok.1 h
  obtain ⟨address, haddress, h⟩ := bind_ok.1 h
  obtain ⟨changeOwner, hchangeOwner, h⟩ := bind_ok.1 h
  obtain ⟨_, -, h⟩ := bind_ok.1 h
  obtain ⟨owned, howned, h⟩ := bind_ok.1 h
  obtain ⟨_, henough, h⟩ := bind_ok.1 h
  obtain ⟨unsigned, hunsigned, hsign⟩ := bind_ok.1 h
  obtain ⟨htime, hheight, rfl⟩ := ownedUtxos_ok.1 howned
  -- the coins are a front of the spendable ones
  obtain ⟨front, hfront, hselect, -⟩ := selectCoins_spec (p.amountMatoms + p.feeMatoms)
    (w.spendable C utxos p.currentTimeMs p.currentHeight) []
  rw [List.nil_append] at hselect
  change selectCoins _ _ [] 0 = _ at hselect
  rw [hselect] at henough hunsigned
  have hle := ensure_ok.1 henough
  dsimp only at hle
  have hbuilt := unsignedTransaction_ok (wrapBuilt_ok.1 hunsigned)
  obtain ⟨hsame, -, hsigned⟩ := signTransaction_ok hsign
  refine ⟨recipient, changeOwner, front, amountOf front - (p.amountMatoms + p.feeMatoms), addressHash_ok.1 hrecipient,
    ⟨address, haddress, addressHash_ok.1 hchangeOwner⟩, ?_⟩
  exact ⟨htime, hheight, hfront, by omega, hbuilt.of_same hsame, hsigned⟩

/-! ## The node's view of a payment -/

namespace Paid

variable (h : Paid w C utxos p recipient changeOwner selected change tx)

include h

theorem spent : tx.spent = selected.map fun u => u.outpoint := h.built.spent

theorem mature {u : UTXO} (hu : u ∈ selected) :
    checkLocks u.locktimeMs u.lockheight p.currentTimeMs p.currentHeight = .ok () := by
  obtain ⟨-, -, -, hlocktime, hlockheight⟩ := mem_spendable.1 (h.front.subset hu)
  have hvalid := u.valid
  simp only [UTXOFields.postInit, requireUint, bind_ok, ensure_ok] at hvalid
  obtain ⟨-, -, -, -, -, -, -, htime, -, hheight, -⟩ := hvalid
  exact checkLocks_ok.2 ⟨htime, hheight, h.time, h.height, hlocktime, hlockheight⟩

variable {view : UTXOSet C} (hview : ∀ u ∈ selected, view.get u.outpoint = some u)

include hview

theorem spendable (q : Input × ℕ) (hq : q ∈ tx.inputs.zipIdx) :
    Spendable view tx p.currentTimeMs p.currentHeight q := by
  obtain ⟨m, hm, hverify⟩ := h.signed q hq
  have hmem : q.1.previousOutpoint ∈ tx.spent := List.mem_map_of_mem (List.fst_mem_of_mem_zipIdx hq)
  rw [h.spent] at hmem
  obtain ⟨u, hu, hout⟩ := List.mem_map.1 hmem
  obtain ⟨-, htemplate, howner, -⟩ := mem_spendable.1 (h.front.subset hu)
  refine ⟨u, m, ?_, hm, verifyUtxoSpend_pkh htemplate howner (h.mature hu) hverify⟩
  rw [← hout]
  exact hview u hu

theorem inputSum_eq : inputSum view tx = amountOf selected := by
  unfold inputSum amountOf
  rw [h.spent, List.map_map]
  congr 1
  apply List.map_congr_left
  intro u hu
  simp [UTXOSet.amountAt, hview u hu]

omit hview

theorem outputSum_eq : tx.outputSum = p.amountMatoms + change := by
  have hamounts := congrArg (fun l => (l.map fun o : OutputFields => o.amountMatoms).sum) h.built.outputs
  rw [List.map_map] at hamounts
  refine hamounts.trans ?_
  unfold paymentOutputs pkhOutput
  by_cases hchange : change = 0
  · simp [hchange]
  · simp [hchange]

include hview

/-- **The node's checks pass.** -/
theorem applies (hdistinct : (utxos.map fun u => u.outpoint).Nodup) {shardTree : ShardTree} {shardId floor : ℕ}
    (hlocktime : p.locktimeMs = 0 ∨ p.locktimeMs ≤ p.currentTimeMs)
    (hlockheight : p.lockheight = 0 ∨ p.lockheight ≤ p.currentHeight)
    (hrouted : shardTree.routeTx (tx.txId C) = .ok shardId)
    (hrate : floor ≤ p.feeMatoms * bytesPerKb / tx.toBytes.length) :
    ∃ r, applySpendTx view tx shardTree shardId floor p.currentTimeMs p.currentHeight = .ok r := by
  have hnodup : tx.spent.Nodup := by
    rw [h.spent]
    exact (h.front.sublist.map _).nodup (nodup_spendable hdistinct)
  have hvalid := tx.valid
  simp only [TransactionFields.postInit, requireUint, bind_ok, ensure_ok] at hvalid
  obtain ⟨-, -, -, -, -, hu64, -, hu64', -⟩ := hvalid
  have hlocks : checkLocks tx.locktimeMs tx.lockheight p.currentTimeMs p.currentHeight = .ok () := by
    refine checkLocks_ok.2 ⟨hu64, hu64', h.time, h.height, ?_, ?_⟩
    · rwa [h.built.locktimeMs]
    · rwa [h.built.lockheight]
  refine applySpendTx_returns hrouted hlocks hnodup (h.spendable hview) ?_ hrate
  rw [h.inputSum_eq hview, h.outputSum_eq, h.amount]
  omega

end Paid

/-! ## Errors -/

/-- The errors of `sign_transaction`. -/
def SignError (e : PyError) : Prop :=
  e = .valueError "transaction has no inputs to sign" ∨ e = .valueError "wallet signature failed verification" ∨
    ∃ msg, e = .valueError ("failed to sign wallet transaction: " ++ msg)

theorem signInput_post {base : Transaction} {q : Input × ℕ} (hq : q ∈ base.inputs.zipIdx) :
    Post (w.signInput C base q) (fun _ => True) SignError := by
  obtain ⟨m, hm⟩ := sighash_returns (C := C) hq
  unfold signInput
  rw [hm, ok_bind, w.ownerPubkeyHash_eq, ok_bind]
  refine (Post.ensure fun _ => .inr (.inl rfl)).bind fun _ _ hverify => ?_
  -- a witness that satisfies the script is short enough for an input
  unfold verifyTemplate at hverify
  obtain ⟨-, hwitness, -⟩ := guarded_true.1 hverify
  have hvalid := q.1.valid
  have hinput : (⟨q.1.previousOutpoint, q.1.sequence, S.sign m.bytes w.privateKey ++ w.publicKey⟩ :
      InputFields).postInit = .ok () := by
    simp only [InputFields.postInit, requireUint, bind_ok, ensure_ok] at hvalid ⊢
    obtain ⟨u, hsequence, v, hfinal, -⟩ := hvalid
    exact ⟨u, hsequence, v, hfinal, hwitness⟩
  rw [(Input.make_ok (i := ⟨_, hinput⟩)).2 rfl]
  exact Post.ok trivial

/-- The constructor of a transaction raises `ValueError` only. -/
theorem wrapSigned_post (t : TransactionFields) : Post (wrapSigned (Transaction.make t)) (fun _ => True) SignError := by
  have hcheck : Post t.postInit (fun _ => True) fun e => ∃ msg, e = .valueError msg := by
    have hensure : ∀ {p : Prop} [Decidable p] (msg : String),
        Post (Exn.ensure p (PyError.valueError msg)) (fun _ => True) fun e => ∃ msg, e = .valueError msg :=
      fun msg => (Post.ensure fun _ => ⟨msg, rfl⟩).mono (fun _ _ => trivial) fun _ h => h
    refine ((hensure _).bind fun _ _ _ => hensure _).bind fun _ _ _ => ?_
    refine ((hensure _).bind fun _ _ _ => hensure _).bind fun _ _ _ => ?_
    refine (hensure _).bind fun _ _ _ => (hensure _).bind fun _ _ _ => (hensure _).bind fun _ _ _ => ?_
    exact (hensure _).bind fun _ _ _ => (hensure _).bind fun _ _ _ => hensure _
  unfold Transaction.make
  split
  · exact Post.ok trivial
  · rename_i e he
    rw [he] at hcheck
    obtain ⟨msg, rfl⟩ := hcheck
    exact Post.error (.inr (.inr ⟨msg, rfl⟩))

/-- Every error of `sign_transaction` is one it raises itself. -/
theorem signTransaction_post (unsigned : Transaction) :
    Post (w.signTransaction C unsigned) (fun _ => True) SignError := by
  unfold signTransaction
  refine (Post.ensure fun _ => .inl rfl).bind fun _ _ _ => ?_
  rw [unsigned.withoutWitnesses_eq, ok_bind]
  exact (Post.mapM fun q hq => signInput_post hq).bind fun inputs _ _ => wrapSigned_post _

/-- The message of the error a payment ends with when the wallet has too little. -/
def insufficient : PyError := .valueError "insufficient spendable balance"

theorem append_ne {start rest msg : String} (h : start.toList.head? ≠ none)
    (hne : start.toList.head? ≠ msg.toList.head?) : start ++ rest ≠ msg := by
  intro heq
  have hhead := congrArg (fun s => s.toList.head?) heq
  rw [String.toList_append, List.head?_append] at hhead
  cases hstart : start.toList.head? with
  | none => exact h hstart
  | some c =>
    rw [hstart] at hhead hne
    exact hne hhead

theorem SignError.ne {e : PyError} (h : SignError e) : e ≠ insufficient := by
  rcases h with rfl | rfl | ⟨msg, rfl⟩
  · decide
  · decide
  · intro heq
    exact append_ne (by decide) (by decide) (PyError.valueError.inj heq)

theorem wrapBuilt_post (x : Except PyError Transaction) : Post (wrapBuilt x) (fun _ => True) fun e => e ≠ insufficient := by
  unfold wrapBuilt
  split
  · refine Post.error fun heq => ?_
    exact append_ne (by decide) (by decide) (PyError.valueError.inj heq)
  · rename_i hnot
    cases x with
    | ok tx => exact Post.ok trivial
    | error e =>
      refine Post.error fun heq => ?_
      exact hnot _ (congrArg Except.error heq)

theorem addressHash_post {name : String} (hname : PyError.valueError (name ++ " is invalid") ≠ insufficient)
    (address : List Char) : Post (addressHash unicodeLower name address) (fun _ => True) fun e => e ≠ insufficient := by
  unfold addressHash
  split
  · exact Post.ok trivial
  · exact Post.error hname
  · exact Post.error hname
  · rename_i e _ hvalue _
    refine Post.error fun heq => ?_
    exact hvalue _ heq

theorem changeAddress_returns (w : Wallet S) (C : Crypto) (unicodeLower : List Char → List Char) (p : Payment) :
    ∃ address, w.changeAddress C unicodeLower p = .ok address := by
  unfold changeAddress
  split
  · exact ⟨_, rfl⟩
  · obtain ⟨groups, -, hencode, -⟩ := Address.decodes_iff unicodeLower (C.domainHash domainAddress w.publicKey)
    refine ⟨Address.stringOf (groups ++ Address.createChecksum Address.hrpText groups), ?_⟩
    have hlength : w.publicKey.length = 32 := w.length_publicKey
    unfold Wallet.address Address.pubkeyToAddress
    rw [ensure_of _ hlength, ok_bind, hencode]
    rfl

theorem requireU64_post {name : String} (hname : PyError.valueError (name ++ " outside uint64 range") ≠ insufficient)
    (value : ℕ) : Post (requireU64 name value) (fun _ => value ≤ u64Max) fun e => e ≠ insufficient :=
  Post.ensure fun _ => hname

/-- **A payment fails for lack of funds only if there is a lack of funds.** -/
theorem createSignedTransaction_post (w : Wallet S) (C : Crypto) (unicodeLower : List Char → List Char)
    (utxos : List UTXO) (p : Payment) : Post (w.createSignedTransaction C unicodeLower utxos p) (fun _ => True) fun e =>
    e = insufficient → p.currentTimeMs ≤ u64Max ∧ p.currentHeight ≤ u64Max ∧
      amountOf (w.spendable C utxos p.currentTimeMs p.currentHeight) < p.amountMatoms + p.feeMatoms := by
  -- every other failure has another text
  have hother : ∀ {α : Type} {Q : α → Prop} {x : Except PyError α}, Post x Q (fun e => e ≠ insufficient) →
      Post x Q fun e => e = insufficient → p.currentTimeMs ≤ u64Max ∧ p.currentHeight ≤ u64Max ∧
        amountOf (w.spendable C utxos p.currentTimeMs p.currentHeight) < p.amountMatoms + p.feeMatoms :=
    fun h => h.mono (fun _ hQ => hQ) fun e hne heq => absurd heq hne
  unfold createSignedTransaction
  refine (hother ((requireU64_post (by decide) _).bind fun _ _ _ => Post.ensure fun _ => by decide)).bind fun _ _ _ => ?_
  refine (hother (requireU64_post (by decide) _)).bind fun _ _ _ => ?_
  refine (hother (requireU64_post (by decide) _)).bind fun _ _ _ => ?_
  refine (hother (requireU64_post (by decide) _)).bind fun _ _ _ => ?_
  refine (hother (requireU64_post (by decide) _)).bind fun _ _ htime => ?_
  refine (hother (requireU64_post (by decide) _)).bind fun _ _ hheight => ?_
  refine (hother (Post.ensure fun _ => by decide)).bind fun _ _ _ => ?_
  refine (hother (addressHash_post (by decide) _)).bind fun recipient _ _ => ?_
  obtain ⟨address, haddress⟩ := changeAddress_returns w C unicodeLower p
  rw [haddress, ok_bind]
  refine (hother (addressHash_post (by decide) _)).bind fun changeOwner _ _ => ?_
  refine (hother (Post.ensure fun _ => by decide)).bind fun _ _ _ => ?_
  rw [ownedUtxos_ok.2 ⟨htime, hheight, rfl⟩, ok_bind]
  obtain ⟨front, -, hselect, hall⟩ := selectCoins_spec (p.amountMatoms + p.feeMatoms)
    (w.spendable C utxos p.currentTimeMs p.currentHeight) []
  rw [List.nil_append] at hselect hall
  change selectCoins _ _ [] 0 = _ at hselect
  rw [hselect]
  refine (Post.ensure fun hless _ => ⟨htime, hheight, ?_⟩).bind fun _ _ _ => ?_
  · refine (hother (wrapBuilt_post _)).bind fun unsigned _ _ => hother ?_
    exact (signTransaction_post unsigned).mono (fun _ _ => trivial) fun e he => he.ne
  · -- the selection fell short, so it took everything
    have hshort : amountOf front < p.amountMatoms + p.feeMatoms := not_le.1 hless
    rwa [hall hshort] at hshort

/-- **Payments are valid.** What `create_signed_transaction` returns spends distinct mature
outputs of the wallet's own key, pays the amount to the recipient and what is left after the
fee, if anything, to the change address; and the node applies it wherever it finds those
outputs, if the locks of the payment are mature and its fee reaches the floor of the shard it
is routed to. It fails for lack of funds only if the balance is below amount and fee. -/
theorem createSignedTransaction_valid (w : Wallet S) (C : Crypto) (unicodeLower : List Char → List Char)
    {utxos : List UTXO} (hdistinct : (utxos.map fun u => u.outpoint).Nodup) (p : Payment) :
    (∀ tx, w.createSignedTransaction C unicodeLower utxos p = .ok tx →
      ∃ (owner recipient changeOwner : Hash) (selected : List UTXO) (change : ℕ), w.ownerPubkeyHash C = .ok owner ∧
        Address.addressToPubkeyHash unicodeLower p.recipientAddress = .ok recipient ∧
        w.ChangeTo C unicodeLower p changeOwner ∧
        tx.spent = (selected.map fun u => u.outpoint) ∧ tx.spent.Nodup ∧
        (∀ u ∈ selected, u ∈ utxos ∧ u.template = .pkh ∧ u.ownerPubkeyHash = owner ∧
          utxoIsMature u p.currentTimeMs p.currentHeight) ∧
        (selected.map fun u => u.amountMatoms).sum = p.amountMatoms + p.feeMatoms + change ∧
        (tx.outputs.map fun o => o.toOutputFields) = pkhOutput p.amountMatoms recipient ::
          (if change ≠ 0 then [pkhOutput change changeOwner] else []) ∧
        ((p.locktimeMs = 0 ∨ p.locktimeMs ≤ p.currentTimeMs) → (p.lockheight = 0 ∨ p.lockheight ≤ p.currentHeight) →
          ∀ (view : UTXOSet C) (shardTree : ShardTree) (shardId floor : ℕ),
            (∀ u ∈ selected, view.get u.outpoint = some u) → shardTree.routeTx (tx.txId C) = .ok shardId →
            floor ≤ p.feeMatoms * bytesPerKb / tx.toBytes.length →
            ∃ r, applySpendTx view tx shardTree shardId floor p.currentTimeMs p.currentHeight = .ok r)) ∧
    (w.createSignedTransaction C unicodeLower utxos p = .error (.valueError "insufficient spendable balance") →
      ∃ balance, w.balanceMatoms C utxos p.currentTimeMs p.currentHeight = .ok balance ∧
        balance < p.amountMatoms + p.feeMatoms) := by
  constructor
  · intro tx h
    obtain ⟨recipient, changeOwner, selected, change, hrecipient, hchange, hpaid⟩ := createSignedTransaction_ok h
    refine ⟨_, recipient, changeOwner, selected, change, w.ownerPubkeyHash_eq, hrecipient, hchange, hpaid.spent, ?_, ?_,
      hpaid.amount, hpaid.built.outputs, ?_⟩
    · rw [hpaid.spent]
      exact (hpaid.front.sublist.map _).nodup (nodup_spendable hdistinct)
    · intro u hu
      exact mem_spendable.1 (hpaid.front.subset hu)
    · intro hlocktime hlockheight view shardTree shardId floor hview hrouted hrate
      exact hpaid.applies hview hdistinct hlocktime hlockheight hrouted hrate
  · intro h
    have hpost := createSignedTransaction_post w C unicodeLower utxos p
    rw [h] at hpost
    obtain ⟨htime, hheight, hless⟩ := hpost rfl
    refine ⟨_, ?_, hless⟩
    unfold balanceMatoms
    rw [ownedUtxos_ok.2 ⟨htime, hheight, rfl⟩]
    rfl

end Payments

/-- An output of the wallet of the zero seed. -/
def zeroUtxo : UTXO :=
  ⟨⟨⟨FixedBytes.zero 32, 0, Nat.zero_le _⟩, 5, .pkh, sampleCrypto.domainHash domainAddress (List.replicate 32 0), 0, 0, []⟩,
    by decide⟩

/-- A payment of two out of five, with a fee of one. -/
def zeroPayment : Payment where
  recipientAddress := Address.zeroAddress
  amountMatoms := 2
  feeMatoms := 1
  changeAddress := some Address.zeroAddress
  locktimeMs := 0
  lockheight := 0
  currentTimeMs := 0
  currentHeight := 0

/-- The payment is made from the one output; a payment of six is more than it holds. -/
theorem createSignedTransaction_valid_zeroPayment :
    (∃ tx, zeroWallet.createSignedTransaction sampleCrypto id [zeroUtxo] zeroPayment = .ok tx ∧ tx.spent.Nodup) ∧
      ∃ balance, zeroWallet.balanceMatoms sampleCrypto [zeroUtxo] 0 0 = .ok balance ∧ balance < 7 := by
  have hnodup : ([zeroUtxo].map fun u => u.outpoint).Nodup := List.nodup_singleton _
  constructor
  · obtain ⟨tx, htx⟩ : ∃ tx, zeroWallet.createSignedTransaction sampleCrypto id [zeroUtxo] zeroPayment = .ok tx :=
      returns_of_isOk (by decide +kernel)
    obtain ⟨_, _, _, _, _, -, -, -, -, hspent, -⟩ :=
      (createSignedTransaction_valid zeroWallet sampleCrypto id hnodup zeroPayment).1 tx htx
    exact ⟨tx, htx, hspent⟩
  · exact (createSignedTransaction_valid zeroWallet sampleCrypto id hnodup { zeroPayment with amountMatoms := 6 }).2
      (by decide +kernel)

end Wallet

end TensorPow
