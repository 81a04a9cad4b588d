import TensorPow.Proof.Atomic
import TensorPow.Proof.Codec
import TensorPow.Spec.Graphene

/-!
# What compact relay can rebuild

A receiver rebuilds a fruit from its mempool alone, and a mempool does not hold the coinbase
of a fruit.

* `reconstructFruit_from`: every transaction of a fruit that is rebuilt is in the mempool.
* `relay_never_reconstructs`: a fruit is never rebuilt from a mempool that holds its spends.
-/

namespace TensorPow

open Wire

namespace Graphene

variable {C : Crypto}

/-- The encodings of the pending transactions. -/
def pending (mempool : Mempool) : List Bytes := mempool.transactions.map fun tx => tx.toBytes

/-- An invariant of a loop that may end without a result. -/
theorem foldlM_some_inv {σ α : Type} {f : σ → α → Option σ} {l : List α} (P : σ → Prop)
    (step : ∀ a ∈ l, ∀ s s', P s → f s a = some s' → P s') {s s' : σ} (start : P s)
    (h : l.foldlM f s = some s') : P s' := by
  induction l generalizing s with
  | nil =>
    cases h
    exact start
  | cons a l ih =>
    rw [List.foldlM_cons, Option.bind_eq_bind, Option.bind_eq_some_iff] at h
    obtain ⟨t, ht, h⟩ := h
    exact ih (fun b hb => step b (List.mem_cons_of_mem _ hb)) (step a List.mem_cons_self s t start ht) h

/-! ## Candidates -/

/-- The transactions of the candidates are among `raws`. -/
def From (raws : List Bytes) (candidates : Candidates) : Prop := ∀ p ∈ candidates, p.2.rawTx ∈ raws

theorem From.put {raws : List Bytes} {candidates : Candidates} (h : From raws candidates) {id : Bytes}
    {candidate : CandidateTx} (hraw : candidate.rawTx ∈ raws) : From raws (candidates.put id candidate) := by
  intro p hp
  unfold Candidates.put at hp
  split at hp
  · rcases List.mem_append.1 hp with hp | hp
    · exact h p hp
    · rw [List.mem_singleton.1 hp]
      exact hraw
  · obtain ⟨q, hq, hqp⟩ := List.mem_map.1 hp
    split at hqp
    · rw [← hqp]
      exact hraw
    · rw [← hqp]
      exact h q hq

theorem candidateFromEntry_raw {entry : MempoolEntry} {candidate : CandidateTx}
    (h : candidateFromEntry C entry = some candidate) : candidate.rawTx = entry.tx.toBytes := by
  unfold candidateFromEntry at h
  dsimp only at h
  split at h
  · cases h
  · cases h
    rfl

theorem addCandidate_from {sketch : Sketch} {raws : List Bytes} {candidates candidates' : Candidates}
    {entry : MempoolEntry} (hraw : entry.tx.toBytes ∈ raws) (hfrom : From raws candidates)
    (h : addCandidate C sketch candidates entry = some candidates') : From raws candidates' := by
  unfold addCandidate at h
  rw [Option.bind_eq_bind, Option.bind_eq_some_iff] at h
  obtain ⟨candidate, hcandidate, h⟩ := h
  have hin : candidate.rawTx ∈ raws := by
    rw [candidateFromEntry_raw hcandidate]
    exact hraw
  split at h
  · cases h
    exact hfrom
  · dsimp only at h
    split at h
    · cases h
    · split at h
      · cases h
      · cases h
        exact hfrom.put hin

/-- All candidates come from the mempool. -/
theorem matchingMempoolCandidates_from {sketch : Sketch} {mempool : Mempool} {candidates : Candidates}
    (h : matchingMempoolCandidates C sketch mempool = some candidates) : From (pending mempool) candidates := by
  refine foldlM_some_inv (From (pending mempool)) ?_ (fun p hp => (by cases hp)) h
  intro entry hentry s s' hs hs'
  obtain ⟨p, hp, rfl⟩ := List.mem_map.1 hentry
  have hraw : p.2.tx.toBytes ∈ pending mempool :=
    List.mem_map.2 ⟨p.2.tx, List.mem_map.2 ⟨p, hp, rfl⟩, rfl⟩
  exact addCandidate_from hraw hs hs'

theorem mem_of_lookup {candidates : Candidates} {id : Bytes} {candidate : CandidateTx}
    (h : candidates.lookup id = some candidate) : (id, candidate) ∈ candidates := by
  induction candidates with
  | nil => cases h
  | cons p rest ih =>
    obtain ⟨k, c⟩ := p
    rw [List.lookup_cons] at h
    by_cases hk : id = k
    · subst hk
      rw [beq_self_eq_true] at h
      cases h
      exact List.mem_cons_self
    · rw [beq_false_of_ne hk] at h
      exact List.mem_cons_of_mem _ (ih h)

theorem pickCandidate_from {raws : List Bytes} {candidates : Candidates} (hfrom : From raws candidates)
    {acc acc' : List Bytes × Finset Hash} {id : Bytes} (hacc : ∀ raw ∈ acc.1, raw ∈ raws)
    (h : pickCandidate candidates acc id = some acc') : ∀ raw ∈ acc'.1, raw ∈ raws := by
  unfold pickCandidate at h
  rw [Option.bind_eq_bind, Option.bind_eq_some_iff] at h
  obtain ⟨candidate, hlookup, h⟩ := h
  split at h
  · cases h
  · cases h
    intro raw hraw
    rcases List.mem_append.1 hraw with hraw | hraw
    · exact hacc raw hraw
    · rw [List.mem_singleton.1 hraw]
      exact hfrom _ (mem_of_lookup hlookup)

theorem orNone_some {α : Type} {x : Except PyError α} {a : α} (h : orNone x = .ok (some a)) : x = .ok a := by
  unfold orNone at h
  split at h <;> cases h
  rfl

/-! ## Fruits -/

/-- The last checks of `reconstruct_fruit` return the fruit they check. -/
theorem rebuilt_eq {built fruit : Fruit C} {sketch : Bytes} {length : ℕ}
    (h : (if built.serialize.length ≠ length then return none
      else do
        if (← announceFruit built) ≠ sketch then return none
        return some built : Except PyError (Option (Fruit C))) = .ok (some fruit)) : built = fruit := by
  split at h
  · cases h
  · obtain ⟨announced, -, h⟩ := Exn.bind_ok.1 h
    split at h
    · cases h
    · cases h
      rfl

/-- **Every transaction of a rebuilt fruit is in the mempool.** -/
theorem reconstructFruit_from {sketch : Bytes} {mempool : Mempool} {fruit : Fruit C}
    (h : reconstructFruit sketch mempool = .ok (some fruit)) : ∀ raw ∈ fruit.transactions, raw ∈ pending mempool := by
  unfold reconstructFruit at h
  obtain ⟨decoded, -, h⟩ := Exn.bind_ok.1 h
  split at h
  · split at h
    · rename_i candidates hcandidates
      have hfrom := matchingMempoolCandidates_from hcandidates
      obtain ⟨difference, -, h⟩ := Exn.bind_ok.1 h
      split at h
      · split at h
        · cases h
        · split at h
          · rename_i transactions seen hpicked
            have hraws : ∀ raw ∈ transactions, raw ∈ pending mempool :=
              foldlM_some_inv (fun acc => ∀ raw ∈ acc.1, raw ∈ pending mempool)
                (fun id _ acc acc' hacc hacc' => pickCandidate_from hfrom hacc hacc')
                (fun raw hraw => (by cases hraw)) hpicked
            obtain ⟨made, hmade, h⟩ := Exn.bind_ok.1 h
            split at h
            · rename_i built
              have hfields := Fruit.make_ok.1 (orNone_some hmade)
              have hsame : built = fruit := rebuilt_eq h
              rw [← hsame, hfields]
              exact hraws
            · cases h
          · cases h
      · cases h
    · cases h
  · cases h

/-- A fruit of the shape `process_fruit` accepts, and a mempool that holds exactly its
spends. -/
structure Relayed (fruit : Fruit C) (mempool : Mempool) : Prop where
  shape : ∃ coinbase spends, Node.fruitTxs fruit = .ok (coinbase :: spends) ∧ coinbase.inputs = [] ∧
    ∀ tx ∈ spends, tx.inputs ≠ []
  distinct : (fruit.transactions.map fun raw => ibltKey (txIdOf C raw)).Nodup
  holds : ∀ raw, raw ∈ pending mempool ↔ raw ∈ fruit.transactions.tail

/-- The coinbase is not among the spends. -/
theorem Relayed.coinbase_missing {fruit : Fruit C} {mempool : Mempool} (h : Relayed fruit mempool) :
    ∃ raw ∈ fruit.transactions, raw ∉ pending mempool := by
  obtain ⟨coinbase, spends, htxs, hcoinbase, hspends⟩ := h.shape
  cases hraws : fruit.transactions with
  | nil =>
    rw [Node.fruitTxs, hraws] at htxs
    cases htxs
  | cons raw rest =>
    rw [Node.fruitTxs, hraws] at htxs
    obtain ⟨tx, txs, htx, hrest, heq⟩ := Exn.mapM_cons_ok.1 htxs
    cases heq
    refine ⟨raw, List.mem_cons_self, fun hmem => ?_⟩
    rw [h.holds, hraws, List.tail_cons] at hmem
    obtain ⟨spend, hspend, hdecoded⟩ := (Exn.mapM_ok_mem hrest).1 raw hmem
    -- one encoding is decoded in one way
    rw [htx] at hdecoded
    cases hdecoded
    exact hspends _ hspend hcoinbase

/-- **Compact relay never rebuilds a fruit** from a mempool that holds exactly its spends. -/
theorem relay_never_reconstructs {fruit : Fruit C} {mempool : Mempool} (h : Relayed fruit mempool) :
    (do let sketch ← announceFruit fruit; reconstructFruit sketch mempool) ≠ .ok (some fruit) := by
  intro hback
  obtain ⟨sketch, -, hback⟩ := Exn.bind_ok.1 hback
  obtain ⟨raw, hraw, hmissing⟩ := h.coinbase_missing
  exact hmissing (reconstructFruit_from hback raw hraw)

/-! ## A fruit with one spend -/

/-- A fruit with a coinbase and a spend. -/
def spendingFruit : Fruit sampleCrypto :=
  ⟨⟨⟨sampleFruitHeader genesisParentHash sampleGenesis.blockHash [sampleCoinbase.toBytes, sampleSpend.toBytes] 30000,
      by decide +kernel⟩, [sampleCoinbase.toBytes, sampleSpend.toBytes]⟩, by decide +kernel⟩

/-- A mempool that holds the spend. -/
def spendingPool : Mempool :=
  (Mempool.new .root ∅).insertEntry
    ⟨sampleSpend, sampleSpend.txId sampleCrypto, rootShardId, sampleSpend.toBytes.length, 0, 0⟩

theorem relayed_spending : Relayed spendingFruit spendingPool where
  shape := ⟨sampleCoinbase, [sampleSpend], by decide +kernel, by decide, by decide⟩
  distinct := by decide +kernel
  holds raw := by
    have hpending : pending spendingPool = [sampleSpend.toBytes] := by decide +kernel
    rw [hpending]
    rfl

theorem relay_never_reconstructs_spending :
    (do let sketch ← announceFruit spendingFruit; reconstructFruit sketch spendingPool) ≠ .ok (some spendingFruit) :=
  relay_never_reconstructs relayed_spending

/-- The receiver holds every spend of the fruit, and is left without it. -/
theorem spendingFruit_lost : Relayed spendingFruit spendingPool ∧
    (do let sketch ← announceFruit spendingFruit; reconstructFruit sketch spendingPool) =
      .ok (none (α := Fruit sampleCrypto)) :=
  ⟨relayed_spending, by decide +kernel⟩

end Graphene

end TensorPow
