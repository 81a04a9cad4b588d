import TensorPow.Proof.ErlayWire

/-!
# A round between two Erlay peers

Two peers of `net/erlay.py` build their sketches of one shard, send them over the wire,
reconcile, and serve each other the short ids the other one asks for. Both compute the
short ids under the same session, whichever of them starts.

* `Ends`: the two ends of one session.
* `session_converges`: within the capacity both peers end with the same transactions, each
  fetched once.
* `reconcile_exact`: what `reconcile` returns at each end, exactly.
* `Rounds.spaced`: rounds on a shard are an interval apart.
-/

namespace TensorPow

namespace Erlay

open Wire Sorted

namespace ErlayPeerState

variable {C : Crypto} {p q : ErlayPeerState} {shardId capacity : ℕ} {a b : List Hash} {id : Hash → FieldElement}

/-- The two ends of one session. -/
structure Ends (p q : ErlayPeerState) : Prop where
  there : p.localPeerId = q.remotePeerId
  back : p.remotePeerId = q.localPeerId

theorem Ends.symm (h : Ends p q) : Ends q p := ⟨h.back.symm, h.there.symm⟩

/-- Both ends compute the same session id. -/
theorem Ends.sessionId (h : Ends p q) : p.sessionId C = q.sessionId C := by
  unfold ErlayPeerState.sessionId
  rw [h.there, h.back]
  rcases le_total q.localPeerId q.remotePeerId with hle | hle
  · by_cases hback : q.remotePeerId ≤ q.localPeerId
    · rw [le_antisymm hle hback]
    · simp only [hle, hback, if_true, if_false]
  · by_cases hback : q.localPeerId ≤ q.remotePeerId
    · rw [le_antisymm hle hback]
    · simp only [hle, hback, if_true, if_false]

theorem Ends.shortId (h : Ends p q) (shardId : ℕ) (txId : Hash) : p.shortId C shardId txId = q.shortId C shardId txId := by
  unfold ErlayPeerState.shortId
  rw [h.sessionId]

theorem shortIdLoop_ne_zero {session txId : Hash} {x : FieldElement} :
    ∀ left, shortIdLoop C session shardId txId left = .ok x → x ≠ 0 := by
  intro left
  induction left with
  | zero =>
    intro h
    cases h
  | succ left ih =>
    intro h
    unfold shortIdLoop at h
    dsimp only at h
    split at h
    · exact ih h
    · rename_i hne
      cases h
      exact hne

theorem shortId_ne_zero {txId : Hash} {x : FieldElement} (h : p.shortId C shardId txId = .ok x) : x ≠ 0 := by
  unfold ErlayPeerState.shortId at h
  obtain ⟨-, -, h⟩ := Exn.bind_ok.1 h
  exact shortIdLoop_ne_zero _ h

/-- The transactions of a list have short ids, all different. -/
structure Named (C : Crypto) (p : ErlayPeerState) (shardId : ℕ) (id : Hash → FieldElement) (txIds : List Hash) : Prop where
  short : ∀ t ∈ txIds, p.shortId C shardId t = .ok (id t)
  apart : ∀ t ∈ txIds, ∀ u ∈ txIds, id t = id u → t = u

theorem Named.mono (h : Named C p shardId id b) (hsub : ∀ t ∈ a, t ∈ b) : Named C p shardId id a :=
  ⟨fun t ht => h.short t (hsub t ht), fun t ht u hu => h.apart t (hsub t ht) u (hsub u hu)⟩

theorem Named.ends (h : Named C p shardId id a) (hends : Ends p q) : Named C q shardId id a :=
  ⟨fun t ht => (hends.shortId shardId t).symm.trans (h.short t ht), h.apart⟩

/-- The other end names the same transactions. -/
theorem Named.swap (h : Named C p shardId id (a ++ b)) (hends : Ends p q) : Named C q shardId id (b ++ a) :=
  (h.ends hends).mono fun _ ht => List.mem_append.2 (List.mem_append.1 ht).symm

theorem Named.ne_zero (h : Named C p shardId id a) : ∀ t ∈ a, id t ≠ 0 := fun t ht => shortId_ne_zero (h.short t ht)

theorem Named.nodup (h : Named C p shardId id a) (ha : a.Nodup) : (a.map id).Nodup := ha.map_on h.apart

/-- The short ids of what one end is missing, each once. -/
theorem Named.perm_missing (h : Named C p shardId id (a ++ b)) (ha : a.Nodup) {ids : List FieldElement} (hids : ids.Nodup)
    (hmem : ∀ x, x ∈ ids ↔ x ∈ (a.filter fun t => t ∉ b).map id) : ids.Perm ((a.filter fun t => t ∉ b).map id) := by
  have hmissing : Named C p shardId id (a.filter fun t => t ∉ b) :=
    h.mono fun t ht => List.mem_append_left _ (List.mem_of_mem_filter ht)
  exact (List.perm_ext_iff_of_nodup hids (hmissing.nodup (ha.filter _))).2 hmem

theorem canonicalTxIds_ok (ha : a.Nodup) : canonicalTxIds a = .ok (sortBy FixedBytes.bytes a) := by
  unfold canonicalTxIds
  dsimp only
  rw [Exn.ensure_of _ (nodup_sortBy.2 ha)]
  rfl

/-- Short ids as the words they are sent as. -/
theorem canonicalShortIds_map {ids : List FieldElement} (hnodup : ids.Nodup) (hne : ∀ x ∈ ids, x ≠ 0) :
    canonicalShortIds (ids.map FieldElement.val) = .ok (sortBy FieldElement.val ids) := by
  have hwords : (ids.map FieldElement.val).Nodup := hnodup.map fun x y h => FieldElement.ext h
  rw [canonicalShortIds_ok hwords, map_val_ofWord]
  intro n hn
  obtain ⟨x, hx, rfl⟩ := List.mem_map.1 hn
  exact ⟨fun h => hne x hx (FieldElement.ext h), x.isLt⟩

/-! ## Each operation of a peer -/

/-- A peer's sketch is the sketch of its short ids. -/
theorem buildSketch_ok (hshard : requireShardId shardId = .ok ()) (hcapacity : requireCapacity capacity = .ok ())
    (hid : Named C p shardId id a) (ha : a.Nodup) :
    ∃ sketch, p.buildSketch C shardId a capacity = .ok sketch ∧ sketch.shardId = shardId ∧ sketch.capacity = capacity ∧
      sketch.IsOf (a.map id).toFinset := by
  have hmap : (sortBy FixedBytes.bytes a).mapM (p.shortId C shardId) = .ok ((sortBy FixedBytes.bytes a).map id) :=
    Exn.mapM_eq_map fun t ht => hid.short t (mem_sortBy.1 ht)
  have hsorted : Named C p shardId id (sortBy FixedBytes.bytes a) := hid.mono fun t ht => mem_sortBy.1 ht
  have hwords : (((sortBy FixedBytes.bytes a).map id).map FieldElement.val).Nodup :=
    (hsorted.nodup (nodup_sortBy.2 ha)).map fun x y h => FieldElement.ext h
  obtain ⟨sketch, hsketch, hs, hc, hof⟩ := ErlaySketch.fromShortIds_ok hshard hcapacity hwords (by
    intro n hn
    obtain ⟨x, hx, rfl⟩ := List.mem_map.1 hn
    obtain ⟨t, ht, rfl⟩ := List.mem_map.1 hx
    exact ⟨fun h => hsorted.ne_zero t ht (FieldElement.ext h), (id t).isLt⟩)
  refine ⟨sketch, ?_, hs, hc, ?_⟩
  · unfold buildSketch
    rw [canonicalTxIds_ok ha, Exn.ok_bind, hmap, Exn.ok_bind]
    exact hsketch
  · rw [map_val_ofWord] at hof
    have hsame : (a.map id).toFinset = ((sortBy FixedBytes.bytes a).map id).toFinset := by
      ext x
      simp only [List.mem_toFinset, List.mem_map, mem_sortBy]
    rw [hsame]
    exact hof

/-- An index finds a short id exactly where its transaction is in a list. -/
def Indexes (id : Hash → FieldElement) (done : List Hash) (index : Table ℕ Hash) : Prop :=
  ∀ (x : FieldElement) (t : Hash), index[x.val]? = some t ↔ t ∈ done ∧ id t = x

/-- One round adds its transaction to the index. -/
theorem indexTxId_ok {done : List Hash} {index : Table ℕ Hash} {u : Hash} (hid : Named C p shardId id (done ++ [u]))
    (hindex : Indexes id done index) :
    ∃ index', p.indexTxId C shardId index u = .ok index' ∧ Indexes id (done ++ [u]) index' := by
  have hu : u ∈ done ++ [u] := List.mem_append_right _ List.mem_cons_self
  have hdone : ∀ t ∈ done, t ∈ done ++ [u] := fun t ht => List.mem_append_left _ ht
  -- another transaction with the same short id would break the naming
  have hfree : ∀ existing, index[(id u).val]? = some existing → existing = u := by
    intro existing h
    obtain ⟨hmem, heq⟩ := (hindex _ _).1 h
    exact hid.apart existing (hdone existing hmem) u hu heq
  refine ⟨index.insert (id u).val u, ?_, ?_⟩
  · unfold indexTxId
    rw [hid.short u hu, Exn.ok_bind, Exn.ensure_of _ hfree]
    rfl
  · intro x t
    rw [Table.get_insert, List.mem_append, List.mem_singleton]
    by_cases hx : id u = x
    · rw [if_pos (congrArg FieldElement.val hx)]
      constructor
      · intro h
        cases h
        exact ⟨Or.inr rfl, hx⟩
      · rintro ⟨hmem | rfl, heq⟩
        · rw [hid.apart t (hdone t hmem) u hu (heq.trans hx.symm)]
        · rfl
    · rw [if_neg (fun h => hx (FieldElement.ext h)), hindex]
      constructor
      · rintro ⟨hmem, heq⟩
        exact ⟨Or.inl hmem, heq⟩
      · rintro ⟨hmem | rfl, heq⟩
        · exact ⟨hmem, heq⟩
        · exact absurd heq hx

theorem indexLoop_ok : ∀ (todo done : List Hash) (index : Table ℕ Hash), Named C p shardId id (done ++ todo) →
    Indexes id done index →
    ∃ index', todo.foldlM (p.indexTxId C shardId) index = .ok index' ∧ Indexes id (done ++ todo) index' := by
  intro todo
  induction todo with
  | nil =>
    intro done index _ hindex
    exact ⟨index, rfl, by rwa [List.append_nil]⟩
  | cons u todo ih =>
    intro done index hid hindex
    have hsplit : done ++ u :: todo = (done ++ [u]) ++ todo := by simp
    rw [hsplit] at hid ⊢
    obtain ⟨index₁, hstep, h₁⟩ := indexTxId_ok (hid.mono fun t ht => List.mem_append_left _ ht) hindex
    obtain ⟨index', hrun, h'⟩ := ih (done ++ [u]) index₁ hid h₁
    refine ⟨index', ?_, h'⟩
    rw [List.foldlM_cons, hstep, Exn.ok_bind, hrun]

/-- The index of a peer finds the short ids of its transactions. -/
theorem indexTxIdsByShortId_ok (hshard : requireShardId shardId = .ok ()) (hid : Named C p shardId id a) (ha : a.Nodup) :
    ∃ index, p.indexTxIdsByShortId C shardId a = .ok index ∧ Indexes id a index := by
  have hsorted : Named C p shardId id (sortBy FixedBytes.bytes a) := hid.mono fun t ht => mem_sortBy.1 ht
  obtain ⟨index, hrun, hindex⟩ := indexLoop_ok (sortBy FixedBytes.bytes a) [] ∅ hsorted (by
    intro x t
    simp)
  refine ⟨index, ?_, ?_⟩
  · unfold indexTxIdsByShortId
    rw [hshard, Exn.ok_bind, canonicalTxIds_ok ha, Exn.ok_bind]
    exact hrun
  · intro x t
    rw [hindex, List.nil_append, mem_sortBy]

theorem Indexes.none_iff {index : Table ℕ Hash} (h : Indexes id a index) (x : FieldElement) :
    index[x.val]? = none ↔ x ∉ a.map id := by
  rw [List.mem_map, Option.eq_none_iff_forall_ne_some]
  constructor
  · rintro hnone ⟨t, ht⟩
    exact hnone t ((h x t).2 ht)
  · intro hnot t ht
    exact hnot ⟨t, (h x t).1 ht⟩

/-- `partition_difference` tells a peer's own transactions from the short ids it has no
transaction for. -/
theorem partitionDifference_ok (hshard : requireShardId shardId = .ok ()) (hid : Named C p shardId id a) (ha : a.Nodup)
    {ids : List FieldElement} (hnodup : ids.Nodup) (hne : ∀ x ∈ ids, x ≠ 0) :
    ∃ d, p.partitionDifference C shardId a (ids.map FieldElement.val) = .ok d ∧
      d.localOnlyTxIds = sortBy FixedBytes.bytes (a.filter fun t => id t ∈ ids) ∧
      ∀ x, x ∈ d.remoteOnlyShortIds ↔ x ∈ ids ∧ x ∉ a.map id := by
  obtain ⟨index, hrun, hindex⟩ := indexTxIdsByShortId_ok hshard hid ha
  set sorted := sortBy FieldElement.val ids with hsorted
  have hsortedNodup : sorted.Nodup := nodup_sortBy.2 hnodup
  -- the transactions the index gives, in the order of their short ids
  have hlocalNodup : (sorted.filterMap fun x => index[x.val]?).Nodup := by
    refine hsortedNodup.filterMap ?_
    intro x y t hx hy
    exact ((hindex x t).1 hx).2.symm.trans ((hindex y t).1 hy).2
  have hlocal : (sorted.filterMap fun x => index[x.val]?).Perm (a.filter fun t => id t ∈ ids) := by
    refine (List.perm_ext_iff_of_nodup hlocalNodup (ha.filter _)).2 ?_
    intro t
    rw [List.mem_filterMap, List.mem_filter, decide_eq_true_eq]
    constructor
    · rintro ⟨x, hx, hget⟩
      obtain ⟨hmem, rfl⟩ := (hindex x t).1 hget
      exact ⟨hmem, mem_sortBy.1 hx⟩
    · rintro ⟨hmem, hx⟩
      exact ⟨id t, mem_sortBy.2 hx, (hindex _ t).2 ⟨hmem, rfl⟩⟩
  have hsame : sortBy FixedBytes.bytes (sorted.filterMap fun x => index[x.val]?) =
      sortBy FixedBytes.bytes (a.filter fun t => id t ∈ ids) :=
    sortBy_perm (fun t _ u _ h => FixedBytes.bytes_injective h) hlocal
  have hlocalOk : sortBy FixedBytes.bytes (sortBy FixedBytes.bytes (sorted.filterMap fun x => index[x.val]?)) =
      sortBy FixedBytes.bytes (sorted.filterMap fun x => index[x.val]?) ∧
      (sortBy FixedBytes.bytes (sorted.filterMap fun x => index[x.val]?)).Nodup :=
    ⟨sortBy_eq_self (pairwise_sortBy _ _), nodup_sortBy.2 hlocalNodup⟩
  have hremoteOk : sortBy FieldElement.val (sorted.filter fun x => index[x.val]?.isNone) =
      (sorted.filter fun x => index[x.val]?.isNone) ∧ (sorted.filter fun x => index[x.val]?.isNone).Nodup :=
    ⟨sortBy_eq_self ((pairwise_sortBy _ _).filter _), hsortedNodup.filter _⟩
  have hremoteNe : ∀ x ∈ sorted.filter fun x => index[x.val]?.isNone, x ≠ 0 := by
    intro x hx
    exact hne x (mem_sortBy.1 (List.mem_of_mem_filter hx))
  refine ⟨⟨_, _, hlocalOk.1, hlocalOk.2, hremoteOk.1, hremoteOk.2, hremoteNe⟩, ?_, hsame, ?_⟩
  · unfold partitionDifference
    rw [canonicalShortIds_map hnodup hne, Exn.ok_bind, hrun, Exn.ok_bind]
    unfold ErlaySetDifference.make
    rw [dif_pos hlocalOk, dif_pos hremoteOk, dif_pos hremoteNe]
  · intro x
    rw [List.mem_filter, hsorted, mem_sortBy, Option.isNone_iff_eq_none, hindex.none_iff]

/-- A peer serves the short ids of transactions it has. -/
theorem resolveShortIds_ok (hshard : requireShardId shardId = .ok ()) (hid : Named C p shardId id a) (ha : a.Nodup)
    {ids : List FieldElement} (hnodup : ids.Nodup) (hmem : ∀ x ∈ ids, x ∈ a.map id) :
    ∃ txIds, p.resolveShortIds C shardId a (ids.map FieldElement.val) = .ok txIds ∧
      txIds.Perm (a.filter fun t => id t ∈ ids) := by
  obtain ⟨index, hrun, hindex⟩ := indexTxIdsByShortId_ok hshard hid ha
  have hne : ∀ x ∈ ids, x ≠ 0 := by
    intro x hx
    obtain ⟨t, ht, rfl⟩ := List.mem_map.1 (hmem x hx)
    exact hid.ne_zero t ht
  have hfound : ∀ x ∈ sortBy FieldElement.val ids, ∃ t,
      Exn.get index[x.val]? (PyError.valueError "requested Erlay short id is not in the local set") = .ok t := by
    intro x hx
    obtain ⟨t, ht⟩ := List.mem_map.1 (hmem x (mem_sortBy.1 hx))
    exact ⟨t, Exn.get_ok.2 ((hindex x t).2 ht)⟩
  obtain ⟨txIds, htxIds⟩ := Exn.mapM_returns hfound
  -- each transaction is found under its own short id
  have hback : txIds.map id = sortBy FieldElement.val ids := by
    refine Exn.map_mapM_ok ?_ htxIds
    intro x t h
    exact ((hindex x t).1 (Exn.get_ok.1 h)).2
  have htxNodup : txIds.Nodup := List.Nodup.of_map id (by rw [hback]; exact nodup_sortBy.2 hnodup)
  refine ⟨txIds, ?_, (List.perm_ext_iff_of_nodup htxNodup (ha.filter _)).2 ?_⟩
  · unfold resolveShortIds
    rw [canonicalShortIds_map hnodup hne, Exn.ok_bind, hrun, Exn.ok_bind]
    exact htxIds
  · intro t
    have hown : ∀ u ∈ txIds, u ∈ a := by
      intro u hu
      obtain ⟨x, -, hx⟩ := (Exn.mapM_ok_mem htxIds).2 u hu
      exact ((hindex x u).1 (Exn.get_ok.1 hx)).1
    rw [List.mem_filter, decide_eq_true_eq]
    constructor
    · intro ht
      have hx : id t ∈ sortBy FieldElement.val ids := by
        rw [← hback]
        exact List.mem_map_of_mem ht
      exact ⟨hown t ht, mem_sortBy.1 hx⟩
    · rintro ⟨hmemA, hx⟩
      have hx' : id t ∈ txIds.map id := by
        rw [hback]
        exact mem_sortBy.2 hx
      obtain ⟨u, hu, heq⟩ := List.mem_map.1 hx'
      rw [← hid.apart u (hown u hu) t hmemA heq]
      exact hu

/-! ## The round -/

/-- What one peer has and the other has not, by short ids. -/
theorem symmDiff_map_mem (hid : Named C p shardId id (a ++ b)) (t : Hash) (ht : t ∈ a) :
    id t ∈ symmDiff (a.map id).toFinset (b.map id).toFinset ↔ t ∉ b := by
  have hother : id t ∈ b.map id ↔ t ∈ b := by
    constructor
    · intro h
      obtain ⟨u, hu, heq⟩ := List.mem_map.1 h
      rw [← hid.apart u (List.mem_append_right _ hu) t (List.mem_append_left _ ht) heq]
      exact hu
    · exact fun h => List.mem_map_of_mem h
  have hown : id t ∈ a.map id := List.mem_map_of_mem ht
  rw [Finset.mem_symmDiff, List.mem_toFinset, List.mem_toFinset, hother]
  constructor
  · rintro (h | h)
    · exact h.2
    · exact absurd hown h.2
  · intro h
    exact Or.inl ⟨hown, h⟩

/-- The short ids differ in no more than the transactions. -/
theorem card_symmDiff_map (id : Hash → FieldElement) (a b : List Hash) :
    (symmDiff (a.map id).toFinset (b.map id).toFinset).card ≤ (symmDiff a.toFinset b.toFinset).card := by
  have hsub : symmDiff (a.map id).toFinset (b.map id).toFinset ⊆ (symmDiff a.toFinset b.toFinset).image id := by
    intro x hx
    rw [Finset.mem_image]
    rcases Finset.mem_symmDiff.1 hx with h | h
    · obtain ⟨t, ht, rfl⟩ := List.mem_map.1 (List.mem_toFinset.1 h.1)
      refine ⟨t, Finset.mem_symmDiff.2 (Or.inl ⟨List.mem_toFinset.2 ht, ?_⟩), rfl⟩
      rw [List.mem_toFinset]
      exact fun hb => h.2 (List.mem_toFinset.2 (List.mem_map_of_mem hb))
    · obtain ⟨t, ht, rfl⟩ := List.mem_map.1 (List.mem_toFinset.1 h.1)
      refine ⟨t, Finset.mem_symmDiff.2 (Or.inr ⟨List.mem_toFinset.2 ht, ?_⟩), rfl⟩
      rw [List.mem_toFinset]
      exact fun ha => h.2 (List.mem_toFinset.2 (List.mem_map_of_mem ha))
  exact (Finset.card_le_card hsub).trans Finset.card_image_le

/-- A remote sketch is the same in its bytes. -/
theorem encoded_sketch {sketch : ErlaySketch} (hle : sketch.capacity ≤ maxDecodeCapacity) :
    (RemoteSketch.encoded sketch.toBytes).sketch = .ok sketch :=
  ErlaySketch.fromBytes_toBytes (ErlaySketch.requireDecodeCapacity_ok sketch.capacity_ok hle)

/-- One end of a round: what `reconcile` returns from the other end's sketch, decoded or in
bytes. -/
theorem reconcile_ok (hshard : requireShardId shardId = .ok ()) (hle : capacity ≤ maxDecodeCapacity)
    (hid : Named C p shardId id (a ++ b)) (ha : a.Nodup) {left right : ErlaySketch} (hls : left.shardId = shardId)
    (hlc : left.capacity = capacity) (hlof : left.IsOf (a.map id).toFinset) (hrs : right.shardId = shardId)
    (hrc : right.capacity = capacity) (hrof : right.IsOf (b.map id).toFinset)
    (hfew : (symmDiff a.toFinset b.toFinset).card ≤ capacity) :
    ∃ d, (∀ remote : RemoteSketch, remote.sketch = .ok right → p.reconcile C shardId a left remote = .ok d) ∧
      d.localOnlyTxIds = sortBy FixedBytes.bytes (a.filter fun t => t ∉ b) ∧
      ∀ x, x ∈ d.remoteOnlyShortIds ↔ x ∈ (b.filter fun t => t ∉ a).map id := by
  have hida : Named C p shardId id a := hid.mono fun t ht => List.mem_append_left _ ht
  obtain ⟨difference, hdiff, -, hdc, hdof⟩ :=
    ErlaySketch.difference_ok (hls.trans hrs.symm) (hlc.trans hrc.symm) hlof hrof
  -- the two sketches differ by that of the short ids only one end has
  set D := symmDiff (a.map id).toFinset (b.map id).toFinset with hD
  set ids := D.toList
  have hnodup : ids.Nodup := D.nodup_toList
  have hmem : ∀ x, x ∈ ids ↔ x ∈ D := fun x => Finset.mem_toList
  have hcard : D.card ≤ difference.capacity := by
    rw [hdc, hlc]
    exact (card_symmDiff_map id a b).trans hfew
  have hdecode := ErlaySketch.decodeShortIds_ok hdof hcard (by omega) hnodup hmem
  have hsorted : (sortBy FieldElement.val ids).Nodup := nodup_sortBy.2 hnodup
  obtain ⟨d, hd, hlocal, hremote⟩ := partitionDifference_ok hshard hida ha hsorted
    (fun x hx => hdof.nonzero x ((hmem x).1 (mem_sortBy.1 hx)))
  refine ⟨d, ?_, ?_, ?_⟩
  · intro remote hsketch
    unfold reconcile decodeDifference
    rw [hshard, Exn.ok_bind, Exn.ensure_of _ hls, Exn.ok_bind, hsketch, Exn.ok_bind, hdiff, Exn.ok_bind, hdecode,
      Exn.ok_bind]
    exact hd
  · rw [hlocal]
    congr 1
    apply List.filter_congr
    intro t ht
    rw [decide_eq_decide, mem_sortBy, hmem]
    exact symmDiff_map_mem hid t ht
  · intro x
    rw [hremote, mem_sortBy, hmem, hD, Finset.mem_symmDiff, List.mem_toFinset, List.mem_toFinset]
    constructor
    · rintro ⟨h | h, hnot⟩
      · exact absurd h.1 hnot
      · obtain ⟨t, ht, rfl⟩ := List.mem_map.1 h.1
        refine List.mem_map_of_mem (List.mem_filter.2 ⟨ht, ?_⟩)
        exact decide_eq_true fun hta => hnot (List.mem_map_of_mem hta)
    · intro h
      obtain ⟨t, ht, rfl⟩ := List.mem_map.1 h
      obtain ⟨htb, hnot⟩ := List.mem_filter.1 ht
      -- short ids do not collide
      have hout : id t ∉ a.map id := by
        intro hx
        obtain ⟨u, hu, heq⟩ := List.mem_map.1 hx
        have hsame := hid.apart u (List.mem_append_left _ hu) t (List.mem_append_right _ htb) heq
        exact of_decide_eq_true hnot (hsame ▸ hu)
      exact ⟨Or.inr ⟨List.mem_map_of_mem htb, hout⟩, hout⟩

/-- One end serves what the other end asks for. -/
theorem serve_ok (hshard : requireShardId shardId = .ok ()) (hid : Named C p shardId id (a ++ b)) (ha : a.Nodup)
    {d : ErlaySetDifference} (hasked : ∀ x, x ∈ d.remoteOnlyShortIds ↔ x ∈ (a.filter fun t => t ∉ b).map id) :
    ∃ txIds, p.resolveShortIds C shardId a (d.remoteOnlyShortIds.map FieldElement.val) = .ok txIds ∧
      txIds.Perm (a.filter fun t => t ∉ b) := by
  have hida : Named C p shardId id a := hid.mono fun t ht => List.mem_append_left _ ht
  obtain ⟨txIds, hrun, hperm⟩ := resolveShortIds_ok hshard hida ha d.remote_nodup (by
    intro x hx
    obtain ⟨t, ht, rfl⟩ := List.mem_map.1 ((hasked x).1 hx)
    exact List.mem_map_of_mem (List.mem_of_mem_filter ht))
  refine ⟨txIds, hrun, ?_⟩
  have hsame : (a.filter fun t => id t ∈ d.remoteOnlyShortIds) = a.filter fun t => t ∉ b := by
    apply List.filter_congr
    intro t ht
    rw [decide_eq_decide, hasked]
    constructor
    · intro h
      obtain ⟨u, hu, heq⟩ := List.mem_map.1 h
      obtain ⟨hua, hub⟩ := List.mem_filter.1 hu
      rw [← hida.apart u hua t ht heq]
      exact of_decide_eq_true hub
    · intro h
      exact List.mem_map_of_mem (List.mem_filter.2 ⟨ht, decide_eq_true h⟩)
  rw [← hsame]
  exact hperm

/-- What a peer has and what it fetched. -/
theorem mem_append_fetched {fetched : List Hash} (h : fetched.Perm (b.filter fun t => t ∉ a)) (t : Hash) :
    t ∈ a ++ fetched ↔ t ∈ a ∨ t ∈ b := by
  rw [List.mem_append, h.mem_iff, List.mem_filter, decide_eq_true_eq]
  constructor
  · rintro (h | h)
    · exact Or.inl h
    · exact Or.inr h.1
  · rintro (h | h)
    · exact Or.inl h
    · by_cases hta : t ∈ a
      · exact Or.inl hta
      · exact Or.inr ⟨h, hta⟩

theorem nodup_append_fetched (ha : a.Nodup) (hb : b.Nodup) {fetched : List Hash}
    (h : fetched.Perm (b.filter fun t => t ∉ a)) : (a ++ fetched).Nodup := by
  refine List.nodup_append'.2 ⟨ha, h.nodup_iff.2 (hb.filter _), ?_⟩
  intro t hta hf
  exact of_decide_eq_true (List.mem_filter.1 (h.mem_iff.1 hf)).2 hta

/-- Both ends of a round: the sketches they build, and what `reconcile` returns at each end from
the other end's sketch, decoded or in bytes. -/
theorem round_ok (hshard : requireShardId shardId = .ok ()) (hpos : capacity ≠ 0)
    (hle : capacity ≤ maxDecodeCapacity) (ha : a.Nodup) (hb : b.Nodup) (hidp : Named C p shardId id (a ++ b))
    (hidq : Named C q shardId id (b ++ a)) (hfew : (symmDiff a.toFinset b.toFinset).card ≤ capacity) :
    ∃ left right atP atQ, p.buildSketch C shardId a capacity = .ok left ∧
      q.buildSketch C shardId b capacity = .ok right ∧
      (∀ remote ∈ [RemoteSketch.decoded right, .encoded right.toBytes], p.reconcile C shardId a left remote = .ok atP) ∧
      (∀ remote ∈ [RemoteSketch.decoded left, .encoded left.toBytes], q.reconcile C shardId b right remote = .ok atQ) ∧
      atP.localOnlyTxIds = sortBy FixedBytes.bytes (a.filter fun t => t ∉ b) ∧
      (∀ x, x ∈ atP.remoteOnlyShortIds ↔ x ∈ (b.filter fun t => t ∉ a).map id) ∧
      atQ.localOnlyTxIds = sortBy FixedBytes.bytes (b.filter fun t => t ∉ a) ∧
      ∀ x, x ∈ atQ.remoteOnlyShortIds ↔ x ∈ (a.filter fun t => t ∉ b).map id := by
  have hfew' : (symmDiff b.toFinset a.toFinset).card ≤ capacity := by rwa [symmDiff_comm]
  have hcapacity := ErlaySketch.requireCapacity_of_le hpos hle
  obtain ⟨left, hleft, hls, hlc, hlof⟩ :=
    buildSketch_ok hshard hcapacity (hidp.mono fun t ht => List.mem_append_left _ ht) ha
  obtain ⟨right, hright, hrs, hrc, hrof⟩ :=
    buildSketch_ok hshard hcapacity (hidq.mono fun t ht => List.mem_append_left _ ht) hb
  obtain ⟨atP, hatP, hlocalP, hremoteP⟩ := reconcile_ok hshard hle hidp ha hls hlc hlof hrs hrc hrof hfew
  obtain ⟨atQ, hatQ, hlocalQ, hremoteQ⟩ := reconcile_ok hshard hle hidq hb hrs hrc hrof hls hlc hlof hfew'
  -- a sketch reads the same decoded and in bytes
  have hforms : ∀ {sketch : ErlaySketch}, sketch.capacity = capacity →
      ∀ remote ∈ [RemoteSketch.decoded sketch, .encoded sketch.toBytes], remote.sketch = .ok sketch := by
    intro sketch hc remote hremote
    rcases List.mem_pair.1 hremote with rfl | rfl
    · rfl
    · exact encoded_sketch (by rw [hc]; exact hle)
  exact ⟨left, right, atP, atQ, hleft, hright, fun remote h => hatP remote (hforms hrc remote h),
    fun remote h => hatQ remote (hforms hlc remote h), hlocalP, hremoteP, hlocalQ, hremoteQ⟩

/-- **A round between two peers converges.** Two ends of one session whose transactions of a
shard have different short ids and differ in no more than the capacity build their sketches,
reconcile with the bytes of the other's sketch, and serve what the other asks for. Each asks
for exactly what it lacks, the other announces the same transactions as its own, none is
fetched twice, and both end with the same transactions: those that either of them had. -/
theorem session_converges (hends : Ends p q) (hshard : requireShardId shardId = .ok ()) (hpos : capacity ≠ 0)
    (hle : capacity ≤ maxDecodeCapacity) (ha : a.Nodup) (hb : b.Nodup)
    (hshort : ∀ t ∈ a ++ b, p.shortId C shardId t = .ok (id t))
    (hapart : ∀ t ∈ a ++ b, ∀ u ∈ a ++ b, id t = id u → t = u)
    (hfew : (symmDiff a.toFinset b.toFinset).card ≤ capacity) :
    ∃ left right atP atQ fromQ fromP, p.buildSketch C shardId a capacity = .ok left ∧
      q.buildSketch C shardId b capacity = .ok right ∧
      p.reconcile C shardId a left (.encoded right.toBytes) = .ok atP ∧
      q.reconcile C shardId b right (.encoded left.toBytes) = .ok atQ ∧
      q.resolveShortIds C shardId b (atP.remoteOnlyShortIds.map FieldElement.val) = .ok fromQ ∧
      p.resolveShortIds C shardId a (atQ.remoteOnlyShortIds.map FieldElement.val) = .ok fromP ∧
      fromQ.Perm atQ.localOnlyTxIds ∧ fromP.Perm atP.localOnlyTxIds ∧ (a ++ fromQ).Nodup ∧ (b ++ fromP).Nodup ∧
      (a ++ fromQ).Perm (b ++ fromP) ∧ ∀ t, t ∈ a ++ fromQ ↔ t ∈ a ∨ t ∈ b := by
  have hidp : Named C p shardId id (a ++ b) := ⟨hshort, hapart⟩
  -- both peers derive the same short ids
  have hidq : Named C q shardId id (b ++ a) := hidp.swap hends
  obtain ⟨left, right, atP, atQ, hleft, hright, hatP, hatQ, hlocalP, hremoteP, hlocalQ, hremoteQ⟩ :=
    round_ok hshard hpos hle ha hb hidp hidq hfew
  obtain ⟨fromQ, hfromQ, hpermQ⟩ := serve_ok hshard hidq hb hremoteP
  obtain ⟨fromP, hfromP, hpermP⟩ := serve_ok hshard hidp ha hremoteQ
  have hnodupP := nodup_append_fetched ha hb hpermQ
  have hnodupQ := nodup_append_fetched hb ha hpermP
  refine ⟨left, right, atP, atQ, fromQ, fromP, hleft, hright, hatP _ (List.mem_pair.2 (Or.inr rfl)),
    hatQ _ (List.mem_pair.2 (Or.inr rfl)), hfromQ, hfromP, ?_, ?_, hnodupP, hnodupQ,
    (List.perm_ext_iff_of_nodup hnodupP hnodupQ).2 ?_, mem_append_fetched hpermQ⟩
  · rw [hlocalQ]
    exact hpermQ.trans (perm_sortBy _ _).symm
  · rw [hlocalP]
    exact hpermP.trans (perm_sortBy _ _).symm
  · intro t
    rw [mem_append_fetched hpermQ, mem_append_fetched hpermP, or_comm]

/-- A hash that is the transaction id where a short id is derived. -/
def txIdHash (data : Bytes) : Hash := FixedBytes.ofNat 32 (ofLe (data.drop 61))

def txIdCrypto : Crypto := ⟨txIdHash, fun _ _ _ => true⟩

theorem sample_peers_differ : ([1] : Bytes) ≠ [2] := by decide

theorem sample_interval_pos : 0 < Erlay.intervalMs := by decide

def sampleNear : ErlayPeerState := ⟨[1], [2], Erlay.intervalMs, ∅, rfl, rfl, sample_peers_differ, sample_interval_pos⟩

def sampleFar : ErlayPeerState := ⟨[2], [1], Erlay.intervalMs, ∅, rfl, rfl, sample_peers_differ.symm, sample_interval_pos⟩

def sampleTxId (n : ℕ) : Hash := FixedBytes.ofNat 32 n

def sampleShortId (t : Hash) : FieldElement := ErlaySketch.readSyndrome t.bytes 0

theorem session_converges_two :
    let a := [sampleTxId 7, sampleTxId 5]
    let b := [sampleTxId 5, sampleTxId 9]
    ∃ left right atP atQ fromQ fromP, sampleNear.buildSketch txIdCrypto 0 a 2 = .ok left ∧
      sampleFar.buildSketch txIdCrypto 0 b 2 = .ok right ∧
      sampleNear.reconcile txIdCrypto 0 a left (.encoded right.toBytes) = .ok atP ∧
      sampleFar.reconcile txIdCrypto 0 b right (.encoded left.toBytes) = .ok atQ ∧
      sampleFar.resolveShortIds txIdCrypto 0 b (atP.remoteOnlyShortIds.map FieldElement.val) = .ok fromQ ∧
      sampleNear.resolveShortIds txIdCrypto 0 a (atQ.remoteOnlyShortIds.map FieldElement.val) = .ok fromP ∧
      fromQ.Perm atQ.localOnlyTxIds ∧ fromP.Perm atP.localOnlyTxIds ∧ (a ++ fromQ).Nodup ∧ (b ++ fromP).Nodup ∧
      (a ++ fromQ).Perm (b ++ fromP) ∧ ∀ t, t ∈ a ++ fromQ ↔ t ∈ a ∨ t ∈ b :=
  have hshort : ∀ t ∈ [sampleTxId 7, sampleTxId 5] ++ [sampleTxId 5, sampleTxId 9],
      sampleNear.shortId txIdCrypto 0 t = .ok (sampleShortId t) := by decide +kernel
  session_converges ⟨rfl, rfl⟩ (by decide) (by decide) (by decide) (by decide) (by decide) hshort (by decide) (by decide)

/-! ## What each end learns -/

/-- **Reconciliation is exact within the capacity.** The difference of the sketches of two sets
decodes to what is in only one of them. At both ends of a session `reconcile` returns, from the
other end's sketch or its bytes, the own transactions that the other end has not, and the short
ids of the other end's transactions that are missing. -/
theorem reconcile_exact (C : Crypto) (shardId capacity : ℕ) (hshard : requireShardId shardId = .ok ()) (hpos : capacity ≠ 0)
    (hle : capacity ≤ maxDecodeCapacity) :
    (∀ a b : List ℕ, a.Nodup → b.Nodup → (∀ n ∈ a, n ≠ 0 ∧ n < 2 ^ 64) → (∀ n ∈ b, n ≠ 0 ∧ n < 2 ^ 64) →
      (symmDiff a.toFinset b.toFinset).card ≤ capacity →
      ∃ left right difference ids, ErlaySketch.fromShortIds shardId a capacity = .ok left ∧
        ErlaySketch.fromShortIds shardId b capacity = .ok right ∧ left.difference right = .ok difference ∧
        difference.decodeShortIds maxDecodeCapacity = .ok ids ∧
        ids.map FieldElement.val = ascending (symmDiff a.toFinset b.toFinset)) ∧
    ∀ (p q : ErlayPeerState) (a b : List Hash) (id : Hash → FieldElement), Ends p q → a.Nodup → b.Nodup →
      (∀ t ∈ a ++ b, p.shortId C shardId t = .ok (id t)) → (∀ t ∈ a ++ b, ∀ u ∈ a ++ b, id t = id u → t = u) →
      (symmDiff a.toFinset b.toFinset).card ≤ capacity →
      ∃ left right atP atQ, p.buildSketch C shardId a capacity = .ok left ∧
        q.buildSketch C shardId b capacity = .ok right ∧
        (∀ remote ∈ [RemoteSketch.decoded right, .encoded right.toBytes], p.reconcile C shardId a left remote = .ok atP) ∧
        (∀ remote ∈ [RemoteSketch.decoded left, .encoded left.toBytes], q.reconcile C shardId b right remote = .ok atQ) ∧
        atP.localOnlyTxIds = sortBy FixedBytes.bytes (a.filter fun t => t ∉ b) ∧
        atP.remoteOnlyShortIds.Perm ((b.filter fun t => t ∉ a).map id) ∧
        atQ.localOnlyTxIds = sortBy FixedBytes.bytes (b.filter fun t => t ∉ a) ∧
        atQ.remoteOnlyShortIds.Perm ((a.filter fun t => t ∉ b).map id) := by
  have hcapacity := ErlaySketch.requireCapacity_of_le hpos hle
  constructor
  · intro a b ha hb hra hrb hfew
    obtain ⟨left, hleft, hls, hlc, hlof⟩ := ErlaySketch.fromShortIds_ok hshard hcapacity ha hra
    obtain ⟨right, hright, hrs, hrc, hrof⟩ := ErlaySketch.fromShortIds_ok hshard hcapacity hb hrb
    obtain ⟨difference, ids, hdiff, hdecode, hids⟩ :=
      ErlaySketch.difference_decodes (hls.trans hrs.symm) (hlc.trans hrc.symm) (by rw [hlc]; exact hle) hra hrb hlof hrof
        (by rw [hlc]; exact hfew)
    exact ⟨left, right, difference, ids, hleft, hright, hdiff, hdecode, hids⟩
  · intro p q a b id hends ha hb hshort hapart hfew
    have hidp : Named C p shardId id (a ++ b) := ⟨hshort, hapart⟩
    have hidq : Named C q shardId id (b ++ a) := hidp.swap hends
    obtain ⟨left, right, atP, atQ, hleft, hright, hatP, hatQ, hlocalP, hremoteP, hlocalQ, hremoteQ⟩ :=
      round_ok hshard hpos hle ha hb hidp hidq hfew
    exact ⟨left, right, atP, atQ, hleft, hright, hatP, hatQ, hlocalP, hidq.perm_missing hb atP.remote_nodup hremoteP,
      hlocalQ, hidp.perm_missing ha atQ.remote_nodup hremoteQ⟩

theorem reconcile_exact_two :
    let a := [sampleTxId 7, sampleTxId 5]
    let b := [sampleTxId 5, sampleTxId 9]
    (∃ left right difference ids, ErlaySketch.fromShortIds 0 [7, 5] 2 = .ok left ∧
      ErlaySketch.fromShortIds 0 [5, 9] 2 = .ok right ∧ left.difference right = .ok difference ∧
      difference.decodeShortIds maxDecodeCapacity = .ok ids ∧
      ids.map FieldElement.val = ascending (symmDiff [7, 5].toFinset [5, 9].toFinset)) ∧
    ∃ left right atP atQ, sampleNear.buildSketch txIdCrypto 0 a 2 = .ok left ∧
      sampleFar.buildSketch txIdCrypto 0 b 2 = .ok right ∧
      (∀ remote ∈ [RemoteSketch.decoded right, .encoded right.toBytes],
        sampleNear.reconcile txIdCrypto 0 a left remote = .ok atP) ∧
      (∀ remote ∈ [RemoteSketch.decoded left, .encoded left.toBytes],
        sampleFar.reconcile txIdCrypto 0 b right remote = .ok atQ) ∧
      atP.localOnlyTxIds = sortBy FixedBytes.bytes (a.filter fun t => t ∉ b) ∧
      atP.remoteOnlyShortIds.Perm ((b.filter fun t => t ∉ a).map sampleShortId) ∧
      atQ.localOnlyTxIds = sortBy FixedBytes.bytes (b.filter fun t => t ∉ a) ∧
      atQ.remoteOnlyShortIds.Perm ((a.filter fun t => t ∉ b).map sampleShortId) :=
  have hshort : ∀ t ∈ [sampleTxId 7, sampleTxId 5] ++ [sampleTxId 5, sampleTxId 9],
      sampleNear.shortId txIdCrypto 0 t = .ok (sampleShortId t) := by decide +kernel
  have hexact := reconcile_exact txIdCrypto 0 2 (by decide) (by decide) (by decide)
  ⟨hexact.1 [7, 5] [5, 9] (by decide) (by decide) (by decide) (by decide) (by decide),
    hexact.2 sampleNear sampleFar _ _ sampleShortId ⟨rfl, rfl⟩ (by decide) (by decide) hshort (by decide) (by decide)⟩

/-- No sketch has capacity 0, so even equal sets are not reconciled at it. -/
theorem capacity_zero_refused :
    requireShardId 0 = .ok () ∧ 0 ≤ maxDecodeCapacity ∧ (symmDiff ([] : List ℕ).toFinset ([] : List ℕ).toFinset).card ≤ 0 ∧
      ErlaySketch.fromShortIds 0 [] 0 = .error (.valueError "capacity must be positive") ∧
      sampleNear.buildSketch txIdCrypto 0 [] 0 = .error (.valueError "capacity must be positive") :=
  ⟨rfl, Nat.zero_le _, by decide, rfl, rfl⟩

/-! ## The schedule -/

/-- A round is due from `next_reconcile_at_ms` on. -/
theorem shouldReconcile_eq (p : ErlayPeerState) (hshard : requireShardId shardId = .ok ()) (nowMs : ℕ) :
    ∃ dueMs, p.nextReconcileAtMs shardId = .ok dueMs ∧ p.shouldReconcile shardId nowMs = .ok (decide (dueMs ≤ nowMs)) := by
  unfold nextReconcileAtMs shouldReconcile
  rw [hshard, Exn.ok_bind, Exn.ok_bind]
  cases p.lastReconciledMsByShard[shardId]? with
  | none => exact ⟨0, rfl, by simp⟩
  | some lastMs =>
    refine ⟨lastMs + p.intervalMs, rfl, congrArg Except.ok (decide_eq_decide.2 ?_)⟩
    omega

theorem markReconciled_ok {nowMs : ℕ} {p' : ErlayPeerState} (h : p.markReconciled shardId nowMs = .ok p') :
    requireShardId shardId = .ok () ∧
      p' = { p with lastReconciledMsByShard := p.lastReconciledMsByShard.insert shardId nowMs } := by
  unfold markReconciled at h
  simp only [Exn.bind_ok, Exn.ensure_ok, Exn.pure_ok] at h
  obtain ⟨_, hshard, -, -, rfl⟩ := h
  exact ⟨hshard, rfl⟩

/-- Rounds on some shards, each at a time when it is due. -/
inductive Rounds (p : ErlayPeerState) : List (ℕ × ℕ) → ErlayPeerState → Prop where
  | start : Rounds p [] p
  | round {calls : List (ℕ × ℕ)} {q r : ErlayPeerState} {shardId nowMs : ℕ} : Rounds p calls q →
      q.shouldReconcile shardId nowMs = .ok true → q.markReconciled shardId nowMs = .ok r →
      Rounds p (calls ++ [(shardId, nowMs)]) r

/-- The times of the rounds on a shard. -/
def timesOf (shardId : ℕ) (calls : List (ℕ × ℕ)) : List ℕ := (calls.filter fun c => c.1 = shardId).map Prod.snd

theorem timesOf_snoc (shardId : ℕ) (calls : List (ℕ × ℕ)) (call : ℕ × ℕ) :
    timesOf shardId (calls ++ [call]) = timesOf shardId calls ++ if call.1 = shardId then [call.2] else [] := by
  unfold timesOf
  rw [List.filter_append, List.map_append, List.filter_singleton]
  split <;> simp_all

/-- What is stored of a shard is the time of its last round. -/
theorem Rounds.last {calls : List (ℕ × ℕ)} (h : Rounds p calls q) (hstart : p.lastReconciledMsByShard = ∅) :
    q.intervalMs = p.intervalMs ∧
      ∀ shardId : ℕ, q.lastReconciledMsByShard[shardId]? = (timesOf shardId calls).getLast? := by
  induction h with
  | start =>
    refine ⟨rfl, fun shardId => ?_⟩
    rw [hstart]
    exact Table.get_empty _
  | @round calls q r due nowMs _ _ hmark ih =>
    obtain ⟨hinterval, hlast⟩ := ih
    obtain ⟨-, rfl⟩ := markReconciled_ok hmark
    refine ⟨hinterval, fun shardId => ?_⟩
    rw [timesOf_snoc, Table.get_insert]
    by_cases hsame : due = shardId
    · rw [if_pos hsame, if_pos hsame, List.getLast?_concat]
    · rw [if_neg hsame, if_neg hsame, List.append_nil, hlast]

/-- **Rounds on a shard are an interval apart**, whatever rounds on other shards come between. -/
theorem Rounds.spaced {calls : List (ℕ × ℕ)} (h : Rounds p calls q) (hstart : p.lastReconciledMsByShard = ∅)
    (shardId : ℕ) : (timesOf shardId calls).IsChain fun earlier later => earlier + p.intervalMs ≤ later := by
  induction h with
  | start => exact List.isChain_nil
  | @round calls q r due nowMs hrounds hdue hmark ih =>
    obtain ⟨hinterval, hlast⟩ := hrounds.last hstart
    obtain ⟨hshard, -⟩ := markReconciled_ok hmark
    obtain ⟨dueMs, hnext, hshould⟩ := q.shouldReconcile_eq hshard nowMs
    rw [timesOf_snoc, List.isChain_append]
    refine ⟨ih, ?_, fun earlier hearlier later hlater => ?_⟩
    · split
      · exact List.isChain_singleton _
      · exact List.isChain_nil
    · by_cases hsame : due = shardId
      · subst hsame
        rw [if_pos rfl, List.head?_cons, Option.mem_def, Option.some.injEq] at hlater
        -- the round is due an interval after the one that is stored
        rw [Option.mem_def, ← hlast] at hearlier
        unfold nextReconcileAtMs at hnext
        rw [hshard, Exn.ok_bind, hearlier] at hnext
        have hdueMs : earlier + q.intervalMs = dueMs := Except.ok.inj hnext
        have hle : dueMs ≤ nowMs := of_decide_eq_true (Except.ok.inj (hshould.symm.trans hdue))
        rw [← hinterval, ← hlater]
        omega
      · rw [if_neg hsame] at hlater
        cases hlater

end ErlayPeerState

end Erlay

end TensorPow
