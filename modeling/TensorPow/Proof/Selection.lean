import TensorPow.Proof.Pool
import TensorPow.Proof.Relay

/-!
# Selection for a fruit

`select_for_fruit` counts the bytes of the transactions, while a fruit also counts the length
of each and the number of them.

* `picked`: the entries that the loop takes; `skipped_over`: what is not taken did not fit.
* `NoGap`: no entry fits by its bytes alone.
* `selectForFruit_iff`: the selection fits a fruit exactly if there is no such entry.
-/

namespace TensorPow

open Wire Sorted Exn

/-! ## The loop -/

/-- The entries that the loop takes, when some bytes are used already. -/
def picked (budget : ℕ) : ℕ → List MempoolEntry → List MempoolEntry
  | _, [] => []
  | used, e :: entries =>
    if budget < used + e.txSizeBytes then picked budget used entries
    else e :: picked budget (used + e.txSizeBytes) entries

/-- The bytes of some entries. -/
def rawBytes (entries : List MempoolEntry) : ℕ := (entries.map fun e => e.txSizeBytes).sum

theorem fill_eq (budget : ℕ) (entries : List MempoolEntry) :
    (Mempool.fill budget entries).1 = (picked budget 0 entries).map fun e => e.tx := by
  have hgo : ∀ (entries : List MempoolEntry) (acc : List Transaction) (used : ℕ),
      (entries.foldl (Mempool.selectEntry budget) (acc, used)).1 =
        acc ++ (picked budget used entries).map fun e => e.tx := by
    intro entries
    induction entries with
    | nil =>
      intro acc used
      exact (List.append_nil acc).symm
    | cons e entries ih =>
      intro acc used
      have hstep : Mempool.selectEntry budget (acc, used) e =
          if budget < used + e.txSizeBytes then (acc, used) else (acc ++ [e.tx], used + e.txSizeBytes) := rfl
      rw [List.foldl_cons, hstep]
      unfold picked
      split
      · exact ih acc used
      · rw [ih, List.map_cons, List.append_assoc]
        rfl
  exact hgo entries [] 0

theorem picked_sublist (budget used : ℕ) (entries : List MempoolEntry) :
    (picked budget used entries).Sublist entries := by
  induction entries generalizing used with
  | nil => exact List.Sublist.refl []
  | cons e entries ih =>
    unfold picked
    split
    · exact (ih used).cons e
    · exact (ih _).cons_cons e

/-- **An entry that was not taken did not fit** beside those taken before it. -/
theorem skipped_over {budget used : ℕ} {entries : List MempoolEntry} {e : MempoolEntry}
    (hsorted : entries.Pairwise fun a b => Mempool.selectionKey a < Mempool.selectionKey b) (he : e ∈ entries)
    (hnot : e ∉ picked budget used entries) :
    budget < used + rawBytes ((picked budget used entries).filter fun p =>
      Mempool.selectionKey p < Mempool.selectionKey e) + e.txSizeBytes := by
  induction entries generalizing used with
  | nil => cases he
  | cons x entries ih =>
    rw [List.pairwise_cons] at hsorted
    unfold picked at hnot ⊢
    -- what is picked only adds to the bytes in use
    by_cases hskip : budget < used + x.txSizeBytes
    · rw [if_pos hskip] at hnot ⊢
      rcases List.mem_cons.1 he with rfl | he
      · omega
      · exact ih hsorted.2 he hnot
    · rw [if_neg hskip] at hnot ⊢
      rw [List.mem_cons, not_or] at hnot
      have hmem : e ∈ entries := (List.mem_cons.1 he).resolve_left hnot.1
      have hbefore : Mempool.selectionKey x < Mempool.selectionKey e := hsorted.1 e hmem
      have hrest := ih hsorted.2 hmem hnot.2
      rw [List.filter_cons, if_pos (decide_eq_true hbefore)]
      unfold rawBytes at hrest ⊢
      rw [List.map_cons, List.sum_cons]
      omega

/-! ## The gap between the two sizes -/

/-- Go through entries of the given sizes and take what fits a fruit, with two bytes for the
number of transactions and two for the length of each: every entry that is left out is left
out by its bytes alone. -/
def NoGap (budget : ℕ) : (count used : ℕ) → List ℕ → Prop
  | _, _, [] => True
  | count, used, size :: sizes =>
    if 2 + 2 * count + used + (2 + size) ≤ budget then NoGap budget (count + 1) (used + size) sizes
    else budget < used + size ∧ NoGap budget count used sizes

/-- From entries that fit a fruit, the loop stays within a fruit exactly if it meets no gap. -/
theorem fits_iff_noGap {budget count used : ℕ} {entries : List MempoolEntry}
    (hfits : 2 + 2 * count + used ≤ max budget 2) :
    2 + 2 * (count + (picked budget used entries).length) + (used + rawBytes (picked budget used entries)) ≤ max budget 2 ↔
      NoGap budget count used (entries.map fun e => e.txSizeBytes) := by
  induction entries generalizing count used with
  | nil => exact iff_of_true hfits trivial
  | cons e entries ih =>
    rw [List.map_cons]
    unfold picked NoGap
    by_cases hskip : budget < used + e.txSizeBytes
    · have hlong : ¬2 + 2 * count + used + (2 + e.txSizeBytes) ≤ budget := by omega
      rw [if_pos hskip, if_neg hlong, ih hfits, and_iff_right hskip]
    · rw [if_neg hskip]
      -- the entry is taken, so its length and the count may be too much
      have hlength : (e :: picked budget (used + e.txSizeBytes) entries).length =
          (picked budget (used + e.txSizeBytes) entries).length + 1 := List.length_cons
      have hbytes : rawBytes (e :: picked budget (used + e.txSizeBytes) entries) =
          e.txSizeBytes + rawBytes (picked budget (used + e.txSizeBytes) entries) := by
        unfold rawBytes
        rw [List.map_cons, List.sum_cons]
      rw [hlength, hbytes]
      by_cases htake : 2 + 2 * count + used + (2 + e.txSizeBytes) ≤ budget
      · have hnext : 2 + 2 * (count + 1) + (used + e.txSizeBytes) ≤ max budget 2 := by omega
        rw [if_pos htake, ← ih hnext]
        constructor <;> intro h <;> omega
      · rw [if_neg htake]
        constructor
        · intro h
          omega
        · rintro ⟨hlt, -⟩
          exact absurd hlt hskip

/-! ## The selection -/

/-- The entries of a shard that reach its floor. -/
structure Eligible (m : Mempool) (shardId : ℕ) (e : MempoolEntry) : Prop where
  pending : m.entries[e.txId]? = some e
  shard : e.shardId = shardId
  floor : m.feeFloor shardId ≤ e.feeRateMatomsPerKb

/-- Entries by descending fee rate, then ascending id. -/
def Ordered (entries : List MempoolEntry) : Prop :=
  entries.Pairwise fun a b => b.feeRateMatomsPerKb < a.feeRateMatomsPerKb ∨
    a.feeRateMatomsPerKb = b.feeRateMatomsPerKb ∧ a.txId < b.txId

/-- The size of a fruit of some transactions. -/
def fruitBytes (txs : List Transaction) : ℕ := fruitPayloadSizeBytes (txs.map fun tx => tx.toBytes)

/-- What a selection should be: it fits a fruit of the budget, it is in order, it is of the
shard and reaches the floor, and no eligible entry that is left out fits beside those selected
before it. -/
structure Selects (m : Mempool) (shardId budget : ℕ) (txs : List Transaction) : Prop where
  fits : fruitBytes txs ≤ max budget 2
  entries : ∃ picked, txs = picked.map (fun e => e.tx) ∧ Ordered picked ∧ (∀ e ∈ picked, Eligible m shardId e) ∧
    ∀ e, Eligible m shardId e → e ∉ picked → budget <
      fruitBytes (((picked.filter fun p => Mempool.selectionKey p < Mempool.selectionKey e) ++ [e]).map fun p => p.tx)

theorem selectionKey_lt {a b : MempoolEntry} : Mempool.selectionKey a < Mempool.selectionKey b ↔
    b.feeRateMatomsPerKb < a.feeRateMatomsPerKb ∨ a.feeRateMatomsPerKb = b.feeRateMatomsPerKb ∧ a.txId < b.txId := by
  unfold Mempool.selectionKey
  rw [Prod.Lex.toLex_lt_toLex]
  simp only [neg_lt_neg_iff, Nat.cast_lt, neg_inj, Nat.cast_inj]

theorem ordered_iff {entries : List MempoolEntry} : Ordered entries ↔
    entries.Pairwise fun a b => Mempool.selectionKey a < Mempool.selectionKey b := by
  unfold Ordered
  simp only [selectionKey_lt]

section Rep

variable {C : Crypto} {m : Mempool} {shardId : ℕ}

theorem mem_candidates (h : m.Rep C) {e : MempoolEntry} : e ∈ m.candidates shardId ↔ Eligible m shardId e := by
  unfold Mempool.candidates
  rw [mem_sortBy, List.mem_filter, List.mem_map, decide_eq_true_eq]
  constructor
  · rintro ⟨⟨⟨id, e⟩, hp, rfl⟩, hfloor⟩
    rw [Table.mem_toList, h.grouped, Option.filter_eq_some_iff, decide_eq_true_eq] at hp
    obtain ⟨he, hs⟩ := hp
    refine ⟨?_, hs, hfloor⟩
    rw [(h.ids id e he).1]
    exact he
  · rintro ⟨hpending, hs, hfloor⟩
    refine ⟨⟨(e.txId, e), ?_, rfl⟩, hfloor⟩
    rw [Table.mem_toList, h.grouped, Option.filter_eq_some_iff, decide_eq_true_eq]
    exact ⟨hpending, hs⟩

theorem candidates_sorted (h : m.Rep C) :
    (m.candidates shardId).Pairwise fun a b => Mempool.selectionKey a < Mempool.selectionKey b := by
  have hnodup : (m.candidates shardId).Nodup := by
    unfold Mempool.candidates
    refine nodup_sortBy.2 (List.Nodup.filter _ (List.Nodup.map_on ?_ (Table.nodup_toList _)))
    rintro ⟨id, e⟩ hp ⟨id', e'⟩ hp' heq
    dsimp only at heq
    subst heq
    rw [Table.mem_toList, h.grouped, Option.filter_eq_some_iff] at hp hp'
    rw [← (h.ids id e hp.1).1, ← (h.ids id' e hp'.1).1]
  have hkeys : (m.candidates shardId).Pairwise fun a b => Mempool.selectionKey a ≤ Mempool.selectionKey b :=
    pairwise_sortBy _ _
  refine (hkeys.and hnodup).imp_of_mem fun {a b} ha hb hab => lt_of_le_of_ne hab.1 fun heq => hab.2 ?_
  -- entries with one key have one id, and so are one entry
  have hids : a.txId = b.txId := congrArg (fun k => (ofLex k).2) heq
  have hpending := ((mem_candidates h).1 ha).pending
  rw [hids, ((mem_candidates h).1 hb).pending] at hpending
  exact (Option.some.inj hpending).symm

/-- The size of a fruit of pending entries. -/
theorem fruitBytes_eq (h : m.Rep C) {entries : List MempoolEntry} (hall : ∀ e ∈ entries, Eligible m shardId e) :
    fruitBytes (entries.map fun e => e.tx) = 2 + 2 * entries.length + rawBytes entries := by
  unfold fruitBytes fruitPayloadSizeBytes rawBytes
  rw [List.map_map, List.map_map]
  have hsum : ∀ l : List MempoolEntry, (∀ e ∈ l, Eligible m shardId e) →
      (l.map (((fun b : Bytes => 2 + b.length) ∘ fun tx : Transaction => tx.toBytes) ∘ fun e => e.tx)).sum =
        2 * l.length + (l.map fun e => e.txSizeBytes).sum := by
    intro l
    induction l with
    | nil =>
      intro _
      rfl
    | cons e l ih =>
      intro hl
      rw [List.forall_mem_cons] at hl
      have hsize := h.sizes _ _ hl.1.pending
      have hrest := ih hl.2
      simp only [List.map_cons, List.sum_cons, List.length_cons, Function.comp_apply] at hrest ⊢
      omega
  rw [hsum entries hall]
  omega

/-- **The selection** is what it should be, exactly if it meets no gap. -/
theorem selects_iff (h : m.Rep C) (budget : ℕ) :
    Selects m shardId budget (Mempool.fill budget (m.candidates shardId)).1 ↔
      NoGap budget 0 0 ((m.candidates shardId).map fun e => e.txSizeBytes) := by
  have hsorted : (m.candidates shardId).Pairwise fun a b => Mempool.selectionKey a < Mempool.selectionKey b :=
    candidates_sorted h
  have hsub : (picked budget 0 (m.candidates shardId)).Sublist (m.candidates shardId) := picked_sublist _ _ _
  have hall : ∀ e ∈ picked budget 0 (m.candidates shardId), Eligible m shardId e :=
    fun e he => (mem_candidates h).1 (hsub.subset he)
  have hfits : 2 + 2 * (0 + (picked budget 0 (m.candidates shardId)).length) +
      (0 + rawBytes (picked budget 0 (m.candidates shardId))) ≤ max budget 2 ↔ _ :=
    fits_iff_noGap (le_max_right _ _)
  rw [← hfits, fill_eq]
  have hsize := fruitBytes_eq h hall
  constructor
  · intro hselects
    have hle := hselects.fits
    omega
  · intro hle
    refine ⟨by omega, _, rfl, ordered_iff.2 (hsorted.sublist hsub), hall, fun e he hnot => ?_⟩
    -- an entry that was left out did not fit behind those that come before it
    have hover := skipped_over hsorted ((mem_candidates h).2 he) hnot
    have hbefore : ∀ p ∈ ((picked budget 0 (m.candidates shardId)).filter fun p =>
        Mempool.selectionKey p < Mempool.selectionKey e) ++ [e], Eligible m shardId p := by
      intro p hp
      rcases List.mem_append.1 hp with hp | hp
      · exact hall p (List.mem_filter.1 hp).1
      · rw [List.mem_singleton.1 hp]
        exact he
    rw [fruitBytes_eq h hbefore]
    unfold rawBytes at hover ⊢
    rw [List.map_append, List.sum_append, List.map_singleton, List.sum_singleton]
    omega

end Rep

/-- **Selection for a fruit.** The selection of a mempool in use fits a fruit and is what it
should be exactly if, of the eligible entries in order, none fits by its bytes alone. -/
theorem selectForFruit_iff {C : Crypto} {tree : ShardTree} {floors : Table ℕ ℕ} {calls : List PoolCall} {s : Pool}
    (hs : s = (Pool.new tree floors).after C calls) {shardId budget : ℕ} (hshard : requireShardId shardId = .ok ())
    (hbudget : budget ≤ maxFruitPayloadBytes) :
    ∃ txs order, s.toMempool.selectForFruit shardId budget = .ok txs ∧ Ordered order ∧
      (∀ e, e ∈ order ↔ Eligible s.toMempool shardId e) ∧
      (Selects s.toMempool shardId budget txs ↔ NoGap budget 0 0 (order.map fun e => e.tx.toBytes.length)) := by
  have hrep : s.toMempool.Rep C := by
    rw [hs]
    exact Pool.after_rep (Mempool.rep_new tree floors) calls
  have hsizes : ((s.toMempool.candidates shardId).map fun e => e.tx.toBytes.length) =
      (s.toMempool.candidates shardId).map fun e => e.txSizeBytes := by
    refine List.map_congr_left fun e he => ?_
    exact (hrep.sizes _ _ ((mem_candidates hrep).1 he).pending).symm
  refine ⟨(Mempool.fill budget (s.toMempool.candidates shardId)).1, s.toMempool.candidates shardId, ?_, ordered_iff.2 (candidates_sorted hrep),
    fun e => mem_candidates hrep, ?_⟩
  · unfold Mempool.selectForFruit
    rw [hshard, Exn.ok_bind, Exn.ensure_of _ hbudget]
    rfl
  · rw [hsizes]
    exact selects_iff hrep budget

/-- The mempool that holds the spend of a reward. -/
def rewardPool : Pool := (Pool.new .root ∅).after sampleCrypto
  [.addTx (.inl sampleParent) none (some (nodeAfter samplePaying).utxoSet.get) 0 1]

/-- Every outpoint holds an output like the reward. -/
def rewardView : UTXOView := fun o =>
  (UTXO.make ⟨o, 10, .pkh, sampleCrypto.domainHash domainAddress sampleKey, 0, 0, []⟩).toOption

def sampleFirstSpend : Transaction := ⟨passOn (FixedBytes.ofNat 32 1), by decide +kernel⟩

def sampleSecondSpend : Transaction := ⟨passOn (FixedBytes.ofNat 32 2), by decide +kernel⟩

/-- A mempool that holds two of their spends, each 221 bytes long. -/
def pairPool : Pool := (Pool.new .root ∅).after sampleCrypto
  [.addTx (.inl sampleFirstSpend) none (some rewardView) 0 1,
    .addTx (.inr sampleSecondSpend.toBytes) none (some rewardView) 0 1]

/-- One of them fills a fruit of 441 bytes, as it should: the other one does not fit by its bytes
alone. -/
theorem selectForFruit_iff_pair : pairPool.entries.size = 2 ∧
    pairPool.selectForFruit rootShardId 441 = .ok [sampleSecondSpend] ∧
    Selects pairPool.toMempool rootShardId 441 [sampleSecondSpend] := by
  obtain ⟨txs, order, hselect, hordered, heligible, hiff⟩ := selectForFruit_iff (s := pairPool) rfl
    (show requireShardId rootShardId = .ok () by decide) (show 441 ≤ maxFruitPayloadBytes by decide)
  have htaken : pairPool.selectForFruit rootShardId 441 = .ok [sampleSecondSpend] := by decide +kernel
  obtain rfl := Except.ok.inj (hselect.symm.trans htaken)
  refine ⟨by decide +kernel, hselect, hiff.2 ?_⟩
  -- the eligible entries are two at most, of the same length
  have hpending : ∀ e ∈ order, e ∈ pairPool.entries.toList.map Prod.snd := fun e he =>
    List.mem_map.2 ⟨(e.txId, e), Table.mem_toList.2 ((heligible e).1 he).pending, rfl⟩
  have hlengths : ∀ e ∈ pairPool.entries.toList.map Prod.snd, e.tx.toBytes.length = 221 := by decide +kernel
  have hnodup : order.Nodup := (ordered_iff.1 hordered).imp fun h heq => absurd h (by rw [heq]; exact lt_irrefl _)
  have hcount : order.length ≤ 2 := (hnodup.subperm hpending).length_le.trans (by decide +kernel)
  have hsizes : (order.map fun e => e.tx.toBytes.length) = List.replicate order.length 221 := by
    rw [List.eq_replicate_iff, List.length_map]
    refine ⟨rfl, fun n hn => ?_⟩
    obtain ⟨e, he, rfl⟩ := List.mem_map.1 hn
    exact hlengths e (hpending e he)
  rw [hsizes]
  generalize order.length = k at hcount
  interval_cases k <;> simp [NoGap]

/-- The budget is the bytes of the one pending transaction, which a fruit of that size cannot
hold. -/
theorem selectForFruit_overfull :
    rewardPool.selectForFruit rootShardId sampleParent.toBytes.length = .ok [sampleParent] ∧
    sampleParent.toBytes.length ≤ maxFruitPayloadBytes ∧
    ¬Selects rewardPool.toMempool rootShardId sampleParent.toBytes.length [sampleParent] := by
  have hselect : rewardPool.selectForFruit rootShardId sampleParent.toBytes.length = .ok [sampleParent] := by
    decide +kernel
  have hfew : sampleParent.toBytes.length ≤ maxFruitPayloadBytes := by decide +kernel
  have hlong : max sampleParent.toBytes.length 2 < fruitBytes [sampleParent] := by decide +kernel
  exact ⟨hselect, hfew, fun h => absurd h.fits (not_le.2 hlong)⟩

end TensorPow
