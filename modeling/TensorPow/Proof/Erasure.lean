import TensorPow.Coder.Slices
import TensorPow.Proof.RelayTree

/-!
# Recovering a payload from enough chunks

The shards are coded column by column: the symbols at one offset of all shards are one
codeword, and a missing chunk is an erasure at one place of every codeword.

* `Recovers`: what the Reed-Solomon codec is relied on for.
* `encodePayload_eq`: the chunks of a payload, in closed form.
* `decodeColumn_eq`: a codeword with the missing places erased gives back its data symbols.
* `decodePayload_recovers`: any `data_shard_count` chunks, in any order, give the payload.
-/

namespace TensorPow.Turbine

open Wire Exn Sorted Coder

/-- The codec returns codewords of the full length, and recovers the data symbols of a
codeword from any word that agrees with it outside at most `parity` known places. -/
structure Recovers (K : Codec) (dataCount parity : ℕ) : Prop where
  length_encode : ∀ s : Bytes, s.length = dataCount → (K.encode dataCount parity s).length = dataCount + parity
  decode_erased : ∀ (s w : Bytes) (erased : List ℕ), s.length = dataCount → w.length = dataCount + parity →
    erased.Nodup → erased.length ≤ parity → (∀ i ∈ erased, i < dataCount + parity) →
    (∀ i < dataCount + parity, i ∉ erased → w[i]? = (K.encode dataCount parity s)[i]?) →
    K.decode dataCount parity w erased = some s

section Coding

variable {K : Codec} {dataCount parity : ℕ}

/-- The payload with the zeros that fill its last shard. -/
def padded (payload : Bytes) (dataCount : ℕ) : Bytes :=
  payload ++ List.replicate (shardSizeOf payload.length dataCount * dataCount - payload.length) 0

theorem le_shardSize {n : ℕ} (h : dataCount ≠ 0) : n ≤ shardSizeOf n dataCount * dataCount := by
  unfold shardSizeOf ceilDiv
  have hpos : 0 < dataCount := Nat.pos_of_ne_zero h
  have hdiv := Nat.lt_div_mul_add (a := n + dataCount - 1) hpos
  have hmax := Nat.mul_le_mul_right dataCount (le_max_right 1 ((n + dataCount - 1) / dataCount))
  omega

theorem length_padded (payload : Bytes) (h : dataCount ≠ 0) :
    (padded payload dataCount).length = dataCount * shardSizeOf payload.length dataCount := by
  have hle := le_shardSize (n := payload.length) h
  unfold padded
  rw [List.length_append, List.length_replicate, Nat.mul_comm dataCount]
  omega

/-- The data symbols of the column at an offset. -/
def symbolsAt (payload : Bytes) (dataCount offset : ℕ) : Bytes :=
  (List.range dataCount).map fun i => (padded payload dataCount).getD (i * shardSizeOf payload.length dataCount + offset) 0

@[simp] theorem length_symbolsAt (payload : Bytes) (offset : ℕ) : (symbolsAt payload dataCount offset).length = dataCount := by
  simp [symbolsAt]

/-- The codewords of a payload, one for each offset. -/
def codewords (K : Codec) (payload : Bytes) (dataCount parity : ℕ) : List Bytes :=
  (List.range (shardSizeOf payload.length dataCount)).map fun offset =>
    K.encode dataCount parity (symbolsAt payload dataCount offset)

/-- The fields of the chunk at an index. -/
def chunkFields (K : Codec) (payload : Bytes) (dataCount parity index : ℕ) : ChunkFields :=
  ⟨index, dataCount, parity, payload.length, shardOf (codewords K payload dataCount parity) index⟩

theorem Chunk.make_ok {f : ChunkFields} {c : Chunk} : Chunk.make f = .ok c ↔ c.toChunkFields = f := by
  unfold Chunk.make
  split
  · rw [Except.ok.injEq]
    exact ⟨fun h => h ▸ rfl, fun h => by cases h; rfl⟩
  · rename_i e he
    refine ⟨fun h => (by cases h), fun h => ?_⟩
    rw [← h, c.valid] at he
    cases he

theorem Chunk.fields_inj {c c' : Chunk} (h : c.toChunkFields = c'.toChunkFields) : c = c' := by
  cases c
  cases c'
  cases h
  rfl

/-- The shard counts that the code admits. -/
structure Counts (dataCount parity : ℕ) : Prop where
  data_pos : dataCount ≠ 0
  parity_pos : parity ≠ 0
  total_le : dataCount + parity ≤ rsMaxShards

theorem requireShardCounts_ok : requireShardCounts dataCount parity = .ok () ↔ Counts dataCount parity := by
  simp only [requireShardCounts, requirePositiveInt, bind_ok, ensure_ok]
  constructor
  · rintro ⟨-, hdata, -, hparity, htotal⟩
    exact ⟨hdata, hparity, htotal⟩
  · intro h
    exact ⟨(), h.data_pos, (), h.parity_pos, h.total_le⟩

theorem chunkFields_valid {payload : Bytes} (hcounts : Counts dataCount parity) (hlen : payload.length ≤ u32Max)
    {index : ℕ} (hindex : index < dataCount + parity) :
    (chunkFields K payload dataCount parity index).postInit = .ok () := by
  have hsize : (chunkFields K payload dataCount parity index).data.length = shardSizeOf payload.length dataCount := by
    simp [chunkFields, shardOf, codewords]
  have hpos : 1 ≤ shardSizeOf payload.length dataCount := le_max_left _ _
  simp only [ChunkFields.postInit, requirePositiveInt, requireU32, bind_ok, ensure_ok]
  refine ⟨(), hcounts.data_pos, (), hcounts.parity_pos, (), hlen, (), hcounts.total_le, (), hindex, (), ?_, hsize⟩
  rw [hsize]
  omega

/-- The symbols that the loop of `encode_payload` reads. -/
theorem dataShards_at (payload : Bytes) {offset : ℕ} (h : offset < shardSizeOf payload.length dataCount) :
    ((dataShards payload dataCount (shardSizeOf payload.length dataCount)).map fun shard => shard.getD offset 0) =
      symbolsAt payload dataCount offset := by
  unfold dataShards symbolsAt
  rw [List.map_map]
  apply List.map_congr_left
  intro i _
  exact getD_slice _ _ _ h

/-- **The chunks of a payload.** -/
theorem encodePayload_eq (hK : Recovers K dataCount parity) (hcounts : Counts dataCount parity) {payload : Bytes}
    (hlen : payload.length ≤ u32Max) :
    ∃ chunks, encodePayload K payload dataCount parity = .ok chunks ∧
      chunks.map (fun c => c.toChunkFields) = (List.range (dataCount + parity)).map (chunkFields K payload dataCount parity) := by
  have hcolumns : (List.range (shardSizeOf payload.length dataCount)).mapM (encodeColumn K dataCount parity
      (dataShards payload dataCount (shardSizeOf payload.length dataCount))) = .ok (codewords K payload dataCount parity) := by
    apply mapM_eq_map
    intro offset hoffset
    unfold encodeColumn
    rw [dataShards_at payload (List.mem_range.1 hoffset)]
    dsimp only
    rw [ensure_of _ (hK.length_encode _ (length_symbolsAt payload offset))]
    rfl
  have hmake : ∀ index ∈ List.range (dataCount + parity),
      ∃ c, Chunk.make (chunkFields K payload dataCount parity index) = .ok c := by
    intro index hindex
    exact ⟨⟨_, chunkFields_valid hcounts hlen (List.mem_range.1 hindex)⟩, Chunk.make_ok.2 rfl⟩
  obtain ⟨chunks, hchunks⟩ := mapM_returns hmake
  refine ⟨chunks, ?_, ?_⟩
  · unfold encodePayload requireU32
    rw [ensure_of _ hlen, ok_bind, requireShardCounts_ok.2 hcounts, ok_bind]
    dsimp only
    rw [hcolumns, ok_bind]
    exact hchunks
  · have hloop := mapM_ok_iff.1 hchunks
    apply List.ext_getElem
    · simpa using hloop.length_eq.symm
    · intro i hi hi'
      have hlt : i < chunks.length := by simpa using hi
      have hround := hloop.get (i := i) (by simpa using hi') hlt
      simpa using Chunk.make_ok.1 hround

/-- Nothing is encoded without the limits. -/
theorem encodePayload_limits {payload : Bytes} {chunks : List Chunk}
    (h : encodePayload K payload dataCount parity = .ok chunks) : Counts dataCount parity ∧ payload.length ≤ u32Max := by
  unfold encodePayload requireU32 at h
  obtain ⟨_, hlen, h⟩ := bind_ok.1 h
  obtain ⟨_, hcounts, -⟩ := bind_ok.1 h
  exact ⟨requireShardCounts_ok.1 hcounts, ensure_ok.1 hlen⟩

/-- A chunk of the payload, as the encoder makes it. -/
def IsChunk (K : Codec) (payload : Bytes) (dataCount parity : ℕ) (c : Chunk) : Prop :=
  c.index < dataCount + parity ∧ c.toChunkFields = chunkFields K payload dataCount parity c.index

theorem chunks_at {payload : Bytes} {chunks : List Chunk}
    (h : chunks.map (fun c => c.toChunkFields) =
      (List.range (dataCount + parity)).map (chunkFields K payload dataCount parity)) :
    (∀ c ∈ chunks, IsChunk K payload dataCount parity c) ∧
      ∀ i < dataCount + parity, ∃ c, chunks[i]? = some c ∧ c.toChunkFields = chunkFields K payload dataCount parity i := by
  have hlength : chunks.length = dataCount + parity := by simpa using congrArg List.length h
  have hat : ∀ i (hi : i < chunks.length), chunks[i].toChunkFields = chunkFields K payload dataCount parity i := by
    intro i hi
    have hget := congrArg (fun l => l[i]?) h
    have hi' : i < dataCount + parity := by omega
    simpa [hi, hi'] using hget
  constructor
  · intro c hc
    obtain ⟨i, hi, rfl⟩ := List.getElem_of_mem hc
    have hindex : chunks[i].index = i := by rw [hat i hi]; rfl
    unfold IsChunk
    rw [hindex]
    exact ⟨by omega, hat i hi⟩
  · intro i hi
    have hi' : i < chunks.length := by omega
    exact ⟨_, List.getElem?_eq_getElem hi', hat i hi'⟩

/-! ## Decoding -/

section Decoding

variable {payload : Bytes} {l : List Chunk}

theorem index_nodup (hnodup : l.Nodup) (hl : ∀ c ∈ l, IsChunk K payload dataCount parity c) :
    (l.map fun c => c.index).Nodup := by
  rw [List.nodup_map_iff_inj_on hnodup]
  intro c hc c' hc' hindex
  apply Chunk.fields_inj
  rw [(hl c hc).2, (hl c' hc').2, hindex]

/-- Chunks of one payload pass the checks, and come back sorted. -/
theorem canonicalChunks_ok (hne : l ≠ []) (hnodup : l.Nodup) (hl : ∀ c ∈ l, IsChunk K payload dataCount parity c) :
    ∃ first rest, canonicalChunks l = .ok (first, rest) ∧ (first :: rest).Perm l := by
  obtain ⟨head, tail, rfl⟩ := List.exists_cons_of_ne_nil hne
  have hhead := hl head List.mem_cons_self
  obtain ⟨seen, hseen⟩ := foldlM_fresh (fun c : Chunk => c.index) (f := checkChunk head) (s := ∅)
    (l := head :: tail) (by
      intro s c hc hfresh
      have hfields := (hl c hc).2
      have hsize : c.data.length = head.data.length := by
        rw [hfields, hhead.2]
        simp [chunkFields, shardOf]
      unfold checkChunk
      rw [ensure_of _ hfresh, ok_bind, ensure_of _ (by rw [hfields, hhead.2]; rfl), ok_bind,
        ensure_of _ (by rw [hfields, hhead.2]; rfl), ok_bind, ensure_of _ (by rw [hfields, hhead.2]; rfl), ok_bind,
        ensure_of _ hsize]
      rfl) (index_nodup hnodup hl) fun c _ => Finset.notMem_empty _
  have hperm := perm_sortBy (fun c : Chunk => c.index) (head :: tail)
  unfold canonicalChunks
  rw [List.head?_cons, get_some, ok_bind, hseen, ok_bind]
  cases hsorted : sortBy (fun c : Chunk => c.index) (head :: tail) with
  | nil =>
    rw [hsorted] at hperm
    exact absurd hperm.nil_eq.symm hne
  | cons first rest =>
    rw [hsorted] at hperm
    exact ⟨first, rest, rfl, hperm⟩

theorem presentAt_some {index : ℕ} {c : Chunk} (h : presentAt l index = some c) : c ∈ l ∧ c.index = index := by
  unfold presentAt at h
  exact ⟨List.mem_of_find?_eq_some h, by simpa using List.find?_some h⟩

theorem presentAt_isSome {c : Chunk} (h : c ∈ l) : (presentAt l c.index).isSome := by
  unfold presentAt
  rw [List.find?_isSome]
  exact ⟨c, h, by simp⟩

/-- The places without a chunk. -/
def missingOf (l : List Chunk) (total : ℕ) : List ℕ := (List.range total).filter fun index => (presentAt l index).isNone

/-- Every chunk is at a place of its own, so the others are few enough. -/
theorem length_missingOf (hnodup : l.Nodup) (hl : ∀ c ∈ l, IsChunk K payload dataCount parity c)
    (henough : dataCount ≤ l.length) : (missingOf l (dataCount + parity)).length ≤ parity := by
  have hsub : (l.map fun c => c.index) ⊆
      (List.range (dataCount + parity)).filter fun index => !(presentAt l index).isNone := by
    intro index hindex
    obtain ⟨c, hc, rfl⟩ := List.mem_map.1 hindex
    rw [List.mem_filter]
    refine ⟨List.mem_range.2 (hl c hc).1, ?_⟩
    simpa [Option.isSome_iff_ne_none] using presentAt_isSome hc
  have hpresent := ((index_nodup hnodup hl).subperm hsub).length_le
  have hboth := List.length_eq_length_filter_add (l := List.range (dataCount + parity))
    fun index => (presentAt l index).isNone
  rw [List.length_map] at hpresent
  rw [List.length_range] at hboth
  unfold missingOf
  omega

/-- **A codeword with the missing places erased gives back its data symbols.** -/
theorem decodeColumn_eq (hK : Recovers K dataCount parity) (hnodup : l.Nodup)
    (hl : ∀ c ∈ l, IsChunk K payload dataCount parity c) (henough : dataCount ≤ l.length) {first : Chunk}
    (hfirst : IsChunk K payload dataCount parity first) {offset : ℕ}
    (hoffset : offset < shardSizeOf payload.length dataCount) :
    decodeColumn K first l (missingOf l (dataCount + parity)) offset = .ok (symbolsAt payload dataCount offset) := by
  have hdata : first.dataShardCount = dataCount := by rw [hfirst.2]; rfl
  have hparity : first.parityShardCount = parity := by rw [hfirst.2]; rfl
  have htotal : first.totalShards = dataCount + parity := by
    unfold ChunkFields.totalShards
    rw [hdata, hparity]
  set s := symbolsAt payload dataCount offset with hs
  have hlength : (K.encode dataCount parity s).length = dataCount + parity :=
    hK.length_encode s (length_symbolsAt payload offset)
  have hcolumn : (codewords K payload dataCount parity)[offset]? = some (K.encode dataCount parity s) := by
    simp [codewords, hoffset, hs]
  have hdecode := hK.decode_erased s
    ((List.range (dataCount + parity)).map fun index => ((presentAt l index).map fun c => c.data.getD offset 0).getD 0)
    (missingOf l (dataCount + parity)) (length_symbolsAt payload offset) (by simp) (List.nodup_range.filter _)
    (length_missingOf hnodup hl henough) (fun i hi => List.mem_range.1 (List.mem_filter.1 hi).1) (by
      intro i hi hpresent
      -- the chunk at this place holds the symbol of the codeword
      obtain ⟨c, hc⟩ : ∃ c, presentAt l i = some c := by
        rw [← Option.isSome_iff_exists]
        by_contra hnone
        refine hpresent (List.mem_filter.2 ⟨List.mem_range.2 hi, ?_⟩)
        simpa using hnone
      obtain ⟨hmem, rfl⟩ := presentAt_some hc
      have hsymbol : c.data.getD offset 0 = (K.encode dataCount parity s).getD c.index 0 := by
        rw [(hl c hmem).2]
        simp [chunkFields, shardOf, hcolumn]
      have hin : c.index < (K.encode dataCount parity s).length := by omega
      rw [List.getElem?_map, List.getElem?_range hi, Option.map_some, hc, Option.map_some, Option.getD_some, hsymbol,
        List.getD_eq_getElem?_getD, List.getElem?_eq_getElem hin, Option.getD_some])
  unfold decodeColumn
  dsimp only
  rw [htotal, hdata, hparity, hdecode, get_some, ok_bind, ensure_of _ (length_symbolsAt payload offset).le]
  rfl

/-- The columns, read shard by shard, are the padded payload. -/
theorem recovered_eq (hdata : dataCount ≠ 0) :
    ((List.range dataCount).flatMap
      (shardOf ((List.range (shardSizeOf payload.length dataCount)).map (symbolsAt payload dataCount)))) =
      padded payload dataCount := by
  have hlength := length_padded payload hdata
  set size := shardSizeOf payload.length dataCount with hsize
  have hshard : ∀ i ∈ List.range dataCount, shardOf ((List.range size).map (symbolsAt payload dataCount)) i =
      ((padded payload dataCount).drop (i * size)).take size := by
    intro i hi
    have hlt : i < dataCount := List.mem_range.1 hi
    have hslice : i * size + size ≤ (padded payload dataCount).length := by
      rw [hlength, ← Nat.succ_mul]
      exact Nat.mul_le_mul_right size hlt
    rw [← map_range_getD (padded payload dataCount) 0 hslice]
    unfold shardOf
    rw [List.map_map]
    apply List.map_congr_left
    intro offset _
    simp [symbolsAt, hlt, hsize]
  rw [List.flatMap_congr hshard, flatMap_slices, ← hlength, List.take_length]

end Decoding

/-- **Any `data_shard_count` chunks recover the payload.** Payloads within the limits are
encoded, and of the chunks any large enough selection, in any order, decodes to the payload. -/
theorem decodePayload_recovers (hK : Recovers K dataCount parity) (payload : Bytes) :
    (Counts dataCount parity → payload.length ≤ u32Max → ∃ chunks, encodePayload K payload dataCount parity = .ok chunks) ∧
    ∀ chunks, encodePayload K payload dataCount parity = .ok chunks →
      ∀ l : List Chunk, l.Nodup → (∀ c ∈ l, c ∈ chunks) → dataCount ≤ l.length → decodePayload K l = .ok payload := by
  constructor
  · intro hcounts hlen
    obtain ⟨chunks, hchunks, -⟩ := encodePayload_eq hK hcounts hlen
    exact ⟨chunks, hchunks⟩
  intro chunks hencode l hnodup hsub henough
  obtain ⟨hcounts, hlen⟩ := encodePayload_limits hencode
  obtain ⟨chunks', hencode', hfields⟩ := encodePayload_eq hK hcounts hlen
  rw [hencode, Except.ok.injEq] at hencode'
  subst hencode'
  obtain ⟨hall, hat⟩ := chunks_at hfields
  have hne : l ≠ [] := by
    intro hnil
    rw [hnil, List.length_nil] at henough
    exact hcounts.data_pos (by omega)
  obtain ⟨first, rest, hcanonical, hperm⟩ := canonicalChunks_ok hne hnodup fun c hc => hall c (hsub c hc)
  -- from here on everything is about the sorted chunks
  have hsorted : ∀ c ∈ first :: rest, IsChunk K payload dataCount parity c := by
    intro c hc
    exact hall c (hsub c (hperm.subset hc))
  have hnodup' : (first :: rest).Nodup := hperm.nodup_iff.2 hnodup
  have henough' : dataCount ≤ (first :: rest).length := by rwa [hperm.length_eq]
  have hfirst := hsorted first List.mem_cons_self
  have hdata : first.dataShardCount = dataCount := by rw [hfirst.2]; rfl
  have hparity : first.parityShardCount = parity := by rw [hfirst.2]; rfl
  have htotal : first.totalShards = dataCount + parity := by
    unfold ChunkFields.totalShards
    rw [hdata, hparity]
  have hpayload : first.payloadLength = payload.length := by rw [hfirst.2]; rfl
  have hsize : first.data.length = shardSizeOf payload.length dataCount := by
    rw [hfirst.2]
    simp [chunkFields, shardOf, codewords]
  have hcolumns : (List.range (shardSizeOf payload.length dataCount)).mapM
      (decodeColumn K first (first :: rest) (missingOf (first :: rest) (dataCount + parity))) =
      .ok ((List.range (shardSizeOf payload.length dataCount)).map (symbolsAt payload dataCount)) := by
    apply mapM_eq_map
    intro offset hoffset
    exact decodeColumn_eq hK hnodup' hsorted henough' hfirst (List.mem_range.1 hoffset)
  -- the chunks that were sent are those that the payload gives again
  have hsame : ((first :: rest).forM fun chunk => do
      let expected ← Exn.get chunks[chunk.index]? (PyError.indexError "tuple index out of range")
      Exn.ensure (expected.data = chunk.data) (PyError.valueError "chunk data does not match recovered payload")) =
      .ok () := by
    rw [forM_ok]
    intro c hc
    obtain ⟨hindex, hc⟩ := hsorted c hc
    obtain ⟨c', hc', hfields'⟩ := hat c.index hindex
    rw [hc', get_some, ok_bind]
    exact ensure_of _ (by rw [hfields', ← hc])
  have htake : (padded payload dataCount).take payload.length = payload := List.take_left' rfl
  unfold decodePayload
  rw [hcanonical, ok_bind]
  dsimp only
  rw [hdata, hparity, htotal, hpayload, hsize, ensure_of _ henough', ok_bind]
  change (Exn.ensure ((missingOf (first :: rest) (dataCount + parity)).length ≤ parity) _ >>= fun _ =>
    List.mapM (decodeColumn K first (first :: rest) (missingOf (first :: rest) (dataCount + parity))) _ >>= _) = _
  rw [ensure_of _ (length_missingOf hnodup' hsorted henough'), ok_bind, hcolumns, ok_bind, recovered_eq hcounts.data_pos, htake, hencode, ok_bind, hsame]
  rfl

end Coding

/-- With one data and one parity shard the parity is the symbol itself. -/
def repeatCodec : Codec :=
  ⟨fun _ _ s => s ++ s, fun dataCount _ w erased => some (if 0 ∈ erased then w.drop dataCount else w.take dataCount)⟩

theorem repeatCodec_recovers : Recovers repeatCodec 1 1 := by
  constructor
  · intro s hs
    simp [repeatCodec, hs]
  · intro s w erased hs hw hnodup hlength _ hagree
    obtain ⟨a, rfl⟩ := List.length_eq_one_iff.1 hs
    obtain ⟨x, y, rfl⟩ := List.length_eq_two.1 hw
    by_cases hzero : 0 ∈ erased
    · have hone : 1 ∉ erased := by
        intro hone
        have hpair : [0, 1] ⊆ erased := by simp [hzero, hone]
        have hle := ((by decide : [0, 1].Nodup).subperm hpair).length_le
        simp at hle
        omega
      have hy := hagree 1 (by decide) hone
      simp [repeatCodec] at hy
      simp [repeatCodec, hzero, hy]
    · have hx := hagree 0 (by decide) hzero
      simp [repeatCodec] at hx
      simp [repeatCodec, hzero, hx]

theorem decodePayload_recovers_repeat :
    (∃ chunks, encodePayload repeatCodec [7, 8, 9] 1 1 = .ok chunks) ∧
    ∀ chunks, encodePayload repeatCodec [7, 8, 9] 1 1 = .ok chunks →
      ∀ l : List Chunk, l.Nodup → (∀ c ∈ l, c ∈ chunks) → 1 ≤ l.length → decodePayload repeatCodec l = .ok [7, 8, 9] := by
  obtain ⟨hencodes, hdecodes⟩ := decodePayload_recovers repeatCodec_recovers [7, 8, 9]
  exact ⟨hencodes ⟨by decide, by decide, by decide⟩ (by decide), hdecodes⟩

end TensorPow.Turbine
