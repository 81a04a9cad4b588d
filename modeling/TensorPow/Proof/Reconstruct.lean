import TensorPow.Proof.Graphene
import TensorPow.Proof.Iblt
import TensorPow.Proof.Sighash

/-!
# When reconstruction raises

Only the decoder and the constructor of the fruit are guarded. Everything in between runs on
what the sketch and the mempool hold.

* `decodeSketch_caught`, `decodeSketch_wellFormed`: the decoder raises what is caught, and
  what it returns is within the bounds of the wire.
* `matching_iff`: when candidates are found, and which.
* `announceFruit_returns`: a fruit made of candidates can be announced.
* `reconstructFruit_total_iff`: reconstruction raises exactly if two candidates share an IBLT
  key.
-/

namespace TensorPow

open Wire Exn Sorted

namespace Graphene

variable {C : Crypto}

/-! ## IBLTs -/

/-- Hashing gives every key its three positions. -/
def Spreads (C : Crypto) : Prop :=
  ∀ cellCount key, ibltHashCount ≤ cellCount → cellCount ≤ u16Max → Placed C ibltParams cellCount key

section Cells

variable (hspreads : Spreads C) {cellCount : ℕ} (hmin : ibltHashCount ≤ cellCount) (hmax : cellCount ≤ u16Max)

include hspreads hmin hmax

theorem applyIbltKeys_returns (cells : List IBLTCell) (hcells : cells.length = cellCount) (keys : List IBLTKey) :
    ∃ r, applyIbltKeys C ibltParams cells keys = .ok r := by
  induction keys generalizing cells with
  | nil => exact ⟨cells, rfl⟩
  | cons key keys ih =>
    have hplaced : Placed C ibltParams cells.length key := by
      rw [hcells]
      exact hspreads cellCount key hmin hmax
    have hstep := applyIbltKey_of (.inr rfl : (1 : ℤ) = -1 ∨ (1 : ℤ) = 1) hplaced
    have hnext : (Iblt.update xorKeys 1 (ibltValue C ibltParams key) cells
        (positionsOf C ibltParams cells.length key)).length = cellCount := by
      rw [Iblt.length_update]
      exact hcells
    obtain ⟨r, hr⟩ := ih _ hnext
    exact ⟨r, foldlM_cons_ok.2 ⟨_, hstep, hr⟩⟩

/-- Cells are built from distinct keys. -/
theorem buildIblt_returns {txIds : List Hash} (hnodup : (txIds.map ibltKey).Nodup) :
    ∃ cells, buildIblt C txIds cellCount = .ok cells := by
  unfold buildIblt requireIbltCellCount
  rw [ensure_of _ ⟨hmin, hmax⟩, ok_bind, ensure_of _ hnodup, ok_bind]
  exact applyIbltKeys_returns hspreads hmin hmax _ List.length_replicate _

omit hspreads in
/-- And from no others. -/
theorem buildIblt_raises {txIds : List Hash} (hnodup : ¬(txIds.map ibltKey).Nodup) :
    buildIblt C txIds cellCount = .error (.valueError "duplicate Graphene IBLT keys") := by
  unfold buildIblt requireIbltCellCount
  rw [ensure_of _ ⟨hmin, hmax⟩, ok_bind, ensure_not _ hnodup]
  rfl

theorem peelIblt_returns {cells : List IBLTCell} (hcells : cells.length = cellCount) :
    ∃ r, peelIblt C cells = .ok r := by
  have happly : ∀ (cells : List IBLTCell) (c : IBLTCell), cells.length = cellCount →
      ∃ next, (peeler C).applyKey cells ((peeler C).cellKey c) ((peeler C).peelDelta c) = .ok next ∧
        next.length = cellCount := by
    intro cells c hlength
    have hplaced : Placed C ibltParams cells.length c.sum.1 := by
      rw [hlength]
      exact hspreads cellCount _ hmin hmax
    have hdelta : (if c.count = 1 then (-1 : ℤ) else 1) = -1 ∨ (if c.count = 1 then (-1 : ℤ) else 1) = 1 := by
      split
      · exact .inl rfl
      · exact .inr rfl
    exact ⟨_, applyIbltKey_of hdelta hplaced, by rw [Iblt.length_update]; exact hlength⟩
  obtain ⟨r, hr⟩ := Iblt.peelLoop_returns (fun cells => cells.length = cellCount) happly cells.length [] hcells
  unfold peelIblt
  rw [hr]
  exact ⟨_, rfl⟩

end Cells

theorem length_of_buildIblt {txIds : List Hash} {cellCount : ℕ} {cells : List IBLTCell}
    (h : buildIblt C txIds cellCount = .ok cells) : cells.length = cellCount ∧
      HoldsKeys C ibltParams cellCount cells (txIds.map ibltKey) := by
  unfold buildIblt at h
  obtain ⟨_, -, h⟩ := bind_ok.1 h
  obtain ⟨_, -, h⟩ := bind_ok.1 h
  obtain ⟨hlength, -, hholds⟩ := applyIbltKeys_sketch h
  exact ⟨hlength, hholds⟩

theorem subtractIblt_returns {left right : List IBLTCell} (h : left.length = right.length) :
    ∃ cells, subtractIblt left right = .ok cells ∧ cells.length = right.length := by
  unfold subtractIblt
  rw [ensure_of _ h, ok_bind]
  exact ⟨_, rfl, by rw [List.length_zipWith, h, min_self]⟩

/-! ## Decoding -/

theorem caught_fruitHeader (f : FruitHeaderFields) : Caught (FruitHeader.make f) := by
  have hpost : Caught f.postInit := by
    refine ((Caught.ensure _).bind fun _ => Caught.ensure _).bind fun _ => ?_
    refine ((Caught.ensure _).bind fun _ => Caught.ensure _).bind fun _ => ?_
    refine (Caught.ensure _).bind fun _ => (Caught.ensure _).bind fun _ => ?_
    refine ((Caught.ensure _).bind fun _ => (Caught.ensure _).bind fun _ => Caught.ensure _).bind fun _ => ?_
    exact Caught.ensure _
  intro e h
  unfold FruitHeader.make at h
  split at h
  · cases h
  · rename_i e' he'
    cases h
    exact hpost e he'

theorem caught_deserialize (data : Bytes) : Caught (FruitHeader.deserialize data) := by
  have hread : FailsIn PyError.IsCaught FruitHeader.readFields := by
    refine (FailsIn.uint trivial 2).bind fun _ => (FailsIn.uint trivial 2).bind fun _ => ?_
    refine (FailsIn.fixed trivial 32).bind fun _ => (FailsIn.uint trivial 2).bind fun _ => ?_
    refine (FailsIn.take trivial _).bind fun _ => (FailsIn.fixed trivial 32).bind fun _ => ?_
    refine (FailsIn.fixed trivial 32).bind fun _ => (FailsIn.uint trivial 8).bind fun _ => ?_
    exact (FailsIn.uint trivial 4).bind fun _ => (FailsIn.uint trivial 8).bind fun _ => FailsIn.pure _
  refine Caught.bind (fun e h => FailsIn.parse ?_ h) caught_fruitHeader
  exact hread.bind fun _ => (FailsIn.finish trivial).bind fun _ => FailsIn.pure _

theorem failsIn_readBody (uncompressedLen : ℕ) : FailsIn PyError.IsCaught (readBody uncompressedLen) := by
  have hrequire : ∀ {p : Prop} [Decidable p] (msg : String),
      FailsIn PyError.IsCaught (Reader.lift (Exn.ensure p (PyError.valueError msg))) :=
    fun msg => FailsIn.lift (Caught.ensure msg)
  have hcell : FailsIn PyError.IsCaught (readIbltCell truncated) := by
    refine (FailsIn.uint trivial 2).bind fun _ => (FailsIn.fixed trivial 8).bind fun _ => ?_
    exact (FailsIn.uint trivial 4).bind fun _ => FailsIn.pure _
  refine (FailsIn.take trivial _).bind fun _ => (hrequire _).bind fun _ => ?_
  refine (FailsIn.uint trivial 2).bind fun _ => (FailsIn.take trivial _).bind fun _ => ?_
  refine (FailsIn.lift (caught_deserialize _)).bind fun _ => (hrequire _).bind fun _ => ?_
  refine (FailsIn.uint trivial 2).bind fun _ => (hrequire _).bind fun _ => ?_
  refine (FailsIn.uint trivial 2).bind fun _ => (hrequire _).bind fun _ => ?_
  refine (FailsIn.uint trivial 1).bind fun _ => (hrequire _).bind fun _ => ?_
  refine (FailsIn.uint trivial 1).bind fun _ => (hrequire _).bind fun _ => ?_
  refine (FailsIn.uint trivial 1).bind fun _ => (FailsIn.uint trivial 2).bind fun _ => (hrequire _).bind fun _ => ?_
  refine (FailsIn.uint trivial 1).bind fun _ => (hrequire _).bind fun _ => ?_
  refine (FailsIn.take trivial _).bind fun _ => (hrequire _).bind fun _ => (hrequire _).bind fun _ => ?_
  refine (hcell.replicate _).bind fun _ => ((FailsIn.take trivial _).replicate _).bind fun _ => ?_
  refine (FailsIn.finish trivial).bind fun _ => (hrequire _).bind fun _ => (hrequire _).bind fun _ => ?_
  exact FailsIn.pure _

/-- What the decoder raises is caught. -/
theorem decodeSketch_caught (sketch : Bytes) : Caught (decodeSketch sketch) := by
  refine Caught.bind (fun e h => FailsIn.parse ?_ h) fun _ e h => FailsIn.parse (failsIn_readBody _) h
  refine (FailsIn.uint trivial 2).bind fun _ => (FailsIn.lift (Caught.ensure _)).bind fun _ => ?_
  refine (FailsIn.uint trivial 4).bind fun _ => (FailsIn.uint trivial 4).bind fun _ => ?_
  exact (FailsIn.take trivial _).bind fun _ => (FailsIn.finish trivial).bind fun _ => FailsIn.pure _

/-- The bounds that the wire and the decoder's checks put on a sketch. -/
structure WellFormed (s : Sketch) : Prop where
  uncompressedLen : s.uncompressedLen < 256 ^ 4
  header : s.header.serialize.length < 256 ^ 2
  txCount : s.txCount < 256 ^ 2
  bloomBits : canonicalBloomBits s.txCount < 256 ^ 2
  shortIdBytes : s.shortIdBytes ∈ shortIdBytesOptions
  shortIdSalt : s.shortIdSalt < 256
  ibltCellCount : s.ibltCellCount = canonicalIbltCellCount s.txCount
  cellCount : s.ibltCellCount < 256 ^ 2
  ibltCells : s.ibltCells.length = s.ibltCellCount
  orderedShortIds : s.orderedShortIds.length = s.txCount
  nodup : s.orderedShortIds.Nodup

theorem length_of_replicate {α : Type} {p : Reader PyError α} {n : ℕ} {b r : Bytes} {l : List α}
    (h : Reader.replicate p n b = .ok (l, r)) : l.length = n := by
  induction n generalizing b l r with
  | zero =>
    cases h
    rfl
  | succ n ih =>
    obtain ⟨x, b₁, -, h⟩ := Reader.bind_ok.1 h
    obtain ⟨rest, b₂, hrest, h⟩ := Reader.bind_ok.1 h
    obtain ⟨rfl, -⟩ := Reader.pure_ok.1 h
    rw [List.length_cons, ih hrest]

theorem readBody_wellFormed {uncompressedLen : ℕ} (hlen : uncompressedLen < 256 ^ 4) {b r : Bytes} {s : Sketch}
    (h : readBody uncompressedLen b = .ok (s, r)) : WellFormed s := by
  unfold readBody at h
  obtain ⟨_, _, -, h⟩ := Reader.bind_ok.1 h
  obtain ⟨_, _, -, h⟩ := Reader.bind_ok.1 h
  obtain ⟨headerLen, _, hheaderLen, h⟩ := Reader.bind_ok.1 h
  obtain ⟨headerBytes, _, hheaderBytes, h⟩ := Reader.bind_ok.1 h
  obtain ⟨header, _, -, h⟩ := Reader.bind_ok.1 h
  obtain ⟨_, _, hcanonical, h⟩ := Reader.bind_ok.1 h
  obtain ⟨txCount, _, htxCount, h⟩ := Reader.bind_ok.1 h
  obtain ⟨_, _, -, h⟩ := Reader.bind_ok.1 h
  obtain ⟨bloomBits, _, hbloomBits, h⟩ := Reader.bind_ok.1 h
  obtain ⟨_, _, hbloom, h⟩ := Reader.bind_ok.1 h
  obtain ⟨_, _, -, h⟩ := Reader.bind_ok.1 h
  obtain ⟨_, _, -, h⟩ := Reader.bind_ok.1 h
  obtain ⟨shortIdBytes, _, -, h⟩ := Reader.bind_ok.1 h
  obtain ⟨_, _, hwidth, h⟩ := Reader.bind_ok.1 h
  obtain ⟨shortIdSalt, _, hsalt, h⟩ := Reader.bind_ok.1 h
  obtain ⟨ibltCellCount, _, hcellCount, h⟩ := Reader.bind_ok.1 h
  obtain ⟨_, _, hcells, h⟩ := Reader.bind_ok.1 h
  obtain ⟨_, _, -, h⟩ := Reader.bind_ok.1 h
  obtain ⟨_, _, -, h⟩ := Reader.bind_ok.1 h
  obtain ⟨bloom, _, -, h⟩ := Reader.bind_ok.1 h
  obtain ⟨_, _, -, h⟩ := Reader.bind_ok.1 h
  obtain ⟨_, _, -, h⟩ := Reader.bind_ok.1 h
  obtain ⟨ibltCells, _, hibltCells, h⟩ := Reader.bind_ok.1 h
  obtain ⟨orderedShortIds, _, hids, h⟩ := Reader.bind_ok.1 h
  obtain ⟨_, _, -, h⟩ := Reader.bind_ok.1 h
  obtain ⟨_, _, hnodup, h⟩ := Reader.bind_ok.1 h
  obtain ⟨_, _, -, h⟩ := Reader.bind_ok.1 h
  -- the checks between the fields are what makes the sketch well formed
  obtain ⟨rfl, -⟩ := Reader.pure_ok.1 h
  have hheader := ensure_ok.1 (Reader.lift_ok.1 hcanonical).1
  have hbits := ensure_ok.1 (Reader.lift_ok.1 hbloom).1
  have hheaderLt := Reader.uint_lt hheaderLen
  have hbitsLt := Reader.uint_lt hbloomBits
  rw [← (Reader.take_ok hheaderBytes).1, ← hheader] at hheaderLt
  rw [hbits] at hbitsLt
  exact ⟨hlen, hheaderLt, Reader.uint_lt htxCount, hbitsLt, ensure_ok.1 (Reader.lift_ok.1 hwidth).1,
    Reader.uint_lt hsalt, ensure_ok.1 (Reader.lift_ok.1 hcells).1, Reader.uint_lt hcellCount,
    length_of_replicate hibltCells, length_of_replicate hids, ensure_ok.1 (Reader.lift_ok.1 hnodup).1⟩

theorem decodeSketch_wellFormed {sketch : Bytes} {s : Sketch} (h : decodeSketch sketch = .ok s) : WellFormed s := by
  unfold decodeSketch at h
  obtain ⟨⟨uncompressedLen, body⟩, hframe, h⟩ := bind_ok.1 h
  obtain ⟨r, h⟩ := Reader.parse_ok.1 h
  obtain ⟨r', hframe⟩ := Reader.parse_ok.1 hframe
  obtain ⟨_, _, -, hframe⟩ := Reader.bind_ok.1 hframe
  obtain ⟨_, _, -, hframe⟩ := Reader.bind_ok.1 hframe
  obtain ⟨_, _, hlen, hframe⟩ := Reader.bind_ok.1 hframe
  obtain ⟨_, _, -, hframe⟩ := Reader.bind_ok.1 hframe
  obtain ⟨_, _, -, hframe⟩ := Reader.bind_ok.1 hframe
  obtain ⟨_, _, -, hframe⟩ := Reader.bind_ok.1 hframe
  obtain ⟨hpair, -⟩ := Reader.pure_ok.1 hframe
  cases hpair
  exact readBody_wellFormed (Reader.uint_lt hlen) h

/-! ## Candidates -/

section Candidates

variable {s : Sketch}

/-- An entry filed under the id of its transaction. -/
def Filed (C : Crypto) (entry : MempoolEntry) : Prop := txIdOf C entry.tx.toBytes = entry.txId

/-- An id that the Bloom filter of a sketch lets through. -/
def Passes (C : Crypto) (s : Sketch) (txId : Hash) : Prop := bloomContains C txId s.bloom s.bloomBits = true

instance instDecidablePasses (C : Crypto) (s : Sketch) (txId : Hash) : Decidable (Passes C s txId) :=
  inferInstanceAs (Decidable (_ = true))

/-- The short id of a transaction in a sketch. -/
def shortIdIn (C : Crypto) (s : Sketch) (txId : Hash) : Bytes := shortId C s.shortIdBytes s.shortIdSalt txId

/-- The ids among the entries that the Bloom filter lets through, each once. -/
def passing (C : Crypto) (s : Sketch) (entries : List MempoolEntry) : Finset Hash :=
  ((entries.map fun entry => entry.txId).filter fun txId => Passes C s txId).toFinset

theorem mem_passing {entries : List MempoolEntry} {txId : Hash} :
    txId ∈ passing C s entries ↔ (∃ entry ∈ entries, entry.txId = txId) ∧ Passes C s txId := by
  unfold passing
  rw [List.mem_toFinset, List.mem_filter, List.mem_map, decide_eq_true_eq]

/-- The candidates after some entries: one for every id that passes. -/
structure Collected (C : Crypto) (s : Sketch) (entries : List MempoolEntry) (candidates : Candidates) : Prop where
  keys : (candidates.map Prod.fst).Nodup
  shortIds : ∀ p ∈ candidates, p.1 = shortIdIn C s p.2.txId ∧ txIdOf C p.2.rawTx = p.2.txId
  ids : ∀ txId, (∃ p ∈ candidates, p.2.txId = txId) ↔ txId ∈ passing C s entries

theorem lookup_of_mem {candidates : Candidates} (hkeys : (candidates.map Prod.fst).Nodup) {p : Bytes × CandidateTx}
    (hp : p ∈ candidates) : candidates.lookup p.1 = some p.2 := by
  induction candidates with
  | nil => cases hp
  | cons q rest ih =>
    obtain ⟨k, c⟩ := q
    rw [List.map_cons, List.nodup_cons] at hkeys
    rw [List.lookup_cons]
    rcases List.mem_cons.1 hp with rfl | hrest
    · rw [beq_self_eq_true]
    · have hne : p.1 ≠ k := by
        intro heq
        have hmem : p.1 ∈ rest.map Prod.fst := List.mem_map_of_mem hrest
        rw [heq] at hmem
        exact hkeys.1 hmem
      rw [beq_false_of_ne hne]
      exact ih hkeys.2 hrest

theorem keys_put {candidates : Candidates} (hkeys : (candidates.map Prod.fst).Nodup) (id : Bytes)
    (candidate : CandidateTx) : ((candidates.put id candidate).map Prod.fst).Nodup := by
  unfold Candidates.put
  split
  · rename_i hnone
    rw [List.map_append, List.map_singleton, ← List.concat_eq_append]
    refine hkeys.concat fun hmem => ?_
    obtain ⟨p, hp, rfl⟩ := List.mem_map.1 hmem
    rw [lookup_of_mem hkeys hp] at hnone
    cases hnone
  · rw [List.map_map]
    have hsame : (Prod.fst ∘ fun p : Bytes × CandidateTx => if p.1 = id then (id, candidate) else p) = Prod.fst := by
      funext p
      by_cases hid : p.1 = id
      · simp [hid]
      · simp [hid]
    rwa [hsame]

theorem mem_put {candidates : Candidates} {id : Bytes} {candidate : CandidateTx} {p : Bytes × CandidateTx} :
    p ∈ candidates.put id candidate ↔ p = (id, candidate) ∨ p ∈ candidates ∧ p.1 ≠ id := by
  unfold Candidates.put
  split
  · rename_i hnone
    rw [List.mem_append, List.mem_singleton]
    constructor
    · rintro (hp | rfl)
      · refine .inr ⟨hp, fun heq => ?_⟩
        rw [List.lookup_eq_none_iff] at hnone
        simpa [heq] using hnone p hp
      · exact .inl rfl
    · rintro (rfl | ⟨hp, -⟩)
      · exact .inr rfl
      · exact .inl hp
  · rename_i existing hsome
    rw [List.mem_map]
    constructor
    · rintro ⟨q, hq, rfl⟩
      by_cases hid : q.1 = id
      · rw [if_pos hid]
        exact .inl rfl
      · rw [if_neg hid]
        exact .inr ⟨hq, hid⟩
    · rintro (rfl | ⟨hp, hne⟩)
      · exact ⟨_, mem_of_lookup hsome, if_pos rfl⟩
      · exact ⟨p, hp, if_neg hne⟩

theorem candidateFromEntry_some {entry : MempoolEntry} {candidate : CandidateTx} :
    candidateFromEntry C entry = some candidate ↔ Filed C entry ∧ candidate = ⟨entry.txId, entry.tx.toBytes⟩ := by
  unfold candidateFromEntry Filed
  dsimp only
  split
  · rename_i hne
    constructor
    · intro h
      cases h
    · rintro ⟨h, -⟩
      exact absurd h hne
  · rename_i heq
    rw [Option.some.injEq, eq_comm]
    exact ⟨fun h => ⟨not_not.1 heq, h⟩, fun h => h.2⟩

theorem addCandidate_some {candidates candidates' : Candidates} {entry : MempoolEntry} :
    addCandidate C s candidates entry = some candidates' ↔ Filed C entry ∧
      ((¬Passes C s entry.txId ∧ candidates' = candidates) ∨
        (Passes C s entry.txId ∧
          (∀ existing, candidates.lookup (shortIdIn C s entry.txId) = some existing → existing.txId = entry.txId) ∧
          candidates' = candidates.put (shortIdIn C s entry.txId) ⟨entry.txId, entry.tx.toBytes⟩ ∧
          candidates'.length ≤ s.txCount + s.ibltCellCount)) := by
  -- the check of the code is a test of what is found
  have hall : ((candidates.lookup (shortIdIn C s entry.txId)).all fun existing => existing.txId = entry.txId) = true ↔
      ∀ existing, candidates.lookup (shortIdIn C s entry.txId) = some existing → existing.txId = entry.txId := by
    cases candidates.lookup (shortIdIn C s entry.txId) with
    | none => simp
    | some existing => simp
  unfold addCandidate
  rw [Option.bind_eq_bind, Option.bind_eq_some_iff]
  constructor
  · rintro ⟨candidate, hcandidate, h⟩
    obtain ⟨hfiled, rfl⟩ := candidateFromEntry_some.1 hcandidate
    refine ⟨hfiled, ?_⟩
    split at h
    · rename_i hfalse
      cases h
      exact .inl ⟨by rw [Passes, Bool.not_eq_true]; exact hfalse, rfl⟩
    · rename_i htrue
      dsimp only at h
      split at h
      · cases h
      · rename_i hsame
        split at h
        · cases h
        · rename_i hfew
          cases h
          rw [Bool.not_eq_false] at htrue hsame
          exact .inr ⟨htrue, hall.1 hsame, rfl, not_lt.1 hfew⟩
  · rintro ⟨hfiled, ⟨hnot, rfl⟩ | ⟨hpasses, hsame, rfl, hfew⟩⟩
    · refine ⟨_, candidateFromEntry_some.2 ⟨hfiled, rfl⟩, if_pos ?_⟩
      rwa [Passes, Bool.not_eq_true] at hnot
    · refine ⟨_, candidateFromEntry_some.2 ⟨hfiled, rfl⟩, ?_⟩
      rw [if_neg (by rw [Bool.not_eq_false]; exact hpasses)]
      dsimp only
      rw [if_neg (by rw [Bool.not_eq_false]; exact hall.2 hsame)]
      exact if_neg (not_lt.2 hfew)

theorem passing_concat (entries : List MempoolEntry) (entry : MempoolEntry) (txId : Hash) :
    txId ∈ passing C s (entries ++ [entry]) ↔
      txId ∈ passing C s entries ∨ entry.txId = txId ∧ Passes C s txId := by
  rw [mem_passing, mem_passing]
  constructor
  · rintro ⟨⟨e, he, rfl⟩, hpasses⟩
    rcases List.mem_append.1 he with he | he
    · exact .inl ⟨⟨e, he, rfl⟩, hpasses⟩
    · rw [List.mem_singleton.1 he] at hpasses ⊢
      exact .inr ⟨rfl, hpasses⟩
  · rintro (⟨⟨e, he, rfl⟩, hpasses⟩ | ⟨rfl, hpasses⟩)
    · exact ⟨⟨e, List.mem_append_left _ he, rfl⟩, hpasses⟩
    · exact ⟨⟨entry, List.mem_append_right _ (List.mem_singleton_self _), rfl⟩, hpasses⟩

/-- An entry that does not pass changes nothing. -/
theorem Collected.skip {entries : List MempoolEntry} {candidates : Candidates} {entry : MempoolEntry}
    (h : Collected C s entries candidates) (hnot : ¬Passes C s entry.txId) :
    Collected C s (entries ++ [entry]) candidates := by
  refine ⟨h.keys, h.shortIds, fun txId => ?_⟩
  rw [h.ids, passing_concat]
  constructor
  · exact .inl
  · rintro (hmem | ⟨rfl, hpasses⟩)
    · exact hmem
    · exact absurd hpasses hnot

/-- An entry that passes is put in its place. -/
theorem Collected.put {entries : List MempoolEntry} {candidates : Candidates} {entry : MempoolEntry}
    (h : Collected C s entries candidates) (hfiled : Filed C entry) (hpasses : Passes C s entry.txId)
    (hsame : ∀ existing, candidates.lookup (shortIdIn C s entry.txId) = some existing → existing.txId = entry.txId) :
    Collected C s (entries ++ [entry])
      (candidates.put (shortIdIn C s entry.txId) ⟨entry.txId, entry.tx.toBytes⟩) := by
  refine ⟨keys_put h.keys _ _, ?_, fun txId => ?_⟩
  · intro p hp
    rcases mem_put.1 hp with rfl | ⟨hp, -⟩
    · exact ⟨rfl, hfiled⟩
    · exact h.shortIds p hp
  · rw [passing_concat, ← h.ids]
    constructor
    · rintro ⟨p, hp, rfl⟩
      rcases mem_put.1 hp with rfl | ⟨hp, -⟩
      · exact .inr ⟨rfl, hpasses⟩
      · exact .inl ⟨p, hp, rfl⟩
    · rintro (⟨p, hp, rfl⟩ | ⟨rfl, -⟩)
      · by_cases hid : p.1 = shortIdIn C s entry.txId
        · -- the old candidate has the same id, so it gives way
          have hlookup := lookup_of_mem h.keys hp
          rw [hid] at hlookup
          exact ⟨_, mem_put.2 (.inl rfl), (hsame _ hlookup).symm⟩
        · exact ⟨p, mem_put.2 (.inr ⟨hp, hid⟩), rfl⟩
      · exact ⟨_, mem_put.2 (.inl rfl), rfl⟩

/-- One entry keeps what is collected. -/
theorem Collected.step {entries : List MempoolEntry} {candidates candidates' : Candidates} {entry : MempoolEntry}
    (h : Collected C s entries candidates) (hstep : addCandidate C s candidates entry = some candidates') :
    Collected C s (entries ++ [entry]) candidates' := by
  obtain ⟨hfiled, ⟨hnot, rfl⟩ | ⟨hpasses, hsame, rfl, -⟩⟩ := addCandidate_some.1 hstep
  · exact h.skip hnot
  · exact h.put hfiled hpasses hsame

theorem Collected.nil (C : Crypto) (s : Sketch) : Collected C s [] [] := by
  refine ⟨List.nodup_nil, fun p hp => (by cases hp), fun txId => ?_⟩
  rw [mem_passing]
  simp

namespace Collected

variable {entries : List MempoolEntry} {candidates : Candidates} (h : Collected C s entries candidates)

include h

/-- The ids of the candidates are distinct: their short ids are. -/
theorem nodup : (candidates.map fun p => p.2.txId).Nodup := by
  have hkeys := h.keys
  have hmap : candidates.map Prod.fst = (candidates.map fun p => p.2.txId).map (shortIdIn C s) := by
    rw [List.map_map]
    exact List.map_congr_left fun p hp => (h.shortIds p hp).1
  rw [hmap] at hkeys
  exact hkeys.of_map

theorem toFinset : (candidates.map fun p => p.2.txId).toFinset = passing C s entries := by
  ext txId
  rw [List.mem_toFinset, List.mem_map, h.ids]

theorem card : (passing C s entries).card = candidates.length := by
  rw [← h.toFinset, List.toFinset_card_of_nodup h.nodup, List.length_map]

theorem shortId_inj {a b : Hash} (ha : a ∈ passing C s entries) (hb : b ∈ passing C s entries)
    (heq : shortIdIn C s a = shortIdIn C s b) : a = b := by
  obtain ⟨p, hp, rfl⟩ := (h.ids a).2 ha
  obtain ⟨q, hq, rfl⟩ := (h.ids b).2 hb
  rw [← (h.shortIds p hp).1, ← (h.shortIds q hq).1] at heq
  have hlookup := lookup_of_mem h.keys hp
  rw [heq, lookup_of_mem h.keys hq, Option.some.injEq] at hlookup
  rw [hlookup]

end Collected

/-- The entries do not make the matching give up: all are filed under their ids, no two ids
that pass have the same short id, and no more pass than a sketch may stand for. -/
structure Admitted (C : Crypto) (s : Sketch) (entries : List MempoolEntry) : Prop where
  filed : ∀ entry ∈ entries, Filed C entry
  distinct : ∀ a ∈ passing C s entries, ∀ b ∈ passing C s entries, shortIdIn C s a = shortIdIn C s b → a = b
  few : (passing C s entries).card ≤ s.txCount + s.ibltCellCount

theorem passing_subset (entries : List MempoolEntry) (entry : MempoolEntry) :
    passing C s entries ⊆ passing C s (entries ++ [entry]) := by
  intro txId hmem
  exact (passing_concat entries entry txId).2 (.inl hmem)

theorem Admitted.of_concat {entries : List MempoolEntry} {entry : MempoolEntry}
    (h : Admitted C s (entries ++ [entry])) : Admitted C s entries where
  filed e he := h.filed e (List.mem_append_left _ he)
  distinct a ha b hb := h.distinct a (passing_subset entries entry ha) b (passing_subset entries entry hb)
  few := (Finset.card_le_card (passing_subset entries entry)).trans h.few

/-- Whatever is found has been collected. -/
theorem collected_of_some {entries : List MempoolEntry} {candidates : Candidates}
    (h : entries.foldlM (addCandidate C s) [] = some candidates) :
    Collected C s entries candidates ∧ Admitted C s entries := by
  induction entries using List.reverseRecOn generalizing candidates with
  | nil =>
    cases h
    exact ⟨.nil C s, ⟨fun e he => (by cases he), fun a ha => (by simp [passing] at ha), by simp [passing]⟩⟩
  | append_singleton entries entry ih =>
    rw [List.foldlM_append, Option.bind_eq_bind, Option.bind_eq_some_iff] at h
    obtain ⟨before, hbefore, hstep⟩ := h
    have hstep : addCandidate C s before entry = some candidates := by simpa using hstep
    obtain ⟨hcollected, hadmitted⟩ := ih hbefore
    have hcollected' := hcollected.step hstep
    refine ⟨hcollected', ?_, fun a ha b hb => hcollected'.shortId_inj ha hb, ?_⟩
    · intro e he
      rcases List.mem_append.1 he with he | he
      · exact hadmitted.filed e he
      · rw [List.mem_singleton.1 he]
        exact (addCandidate_some.1 hstep).1
    · rw [hcollected'.card]
      obtain ⟨-, ⟨-, rfl⟩ | ⟨-, -, -, hfew⟩⟩ := addCandidate_some.1 hstep
      · rw [← hcollected.card]
        exact hadmitted.few
      · exact hfew

/-- **Candidates are found exactly if the entries are admitted.** -/
theorem matching_iff {entries : List MempoolEntry} :
    (∃ candidates, entries.foldlM (addCandidate C s) [] = some candidates) ↔ Admitted C s entries := by
  constructor
  · rintro ⟨candidates, h⟩
    exact (collected_of_some h).2
  · intro h
    induction entries using List.reverseRecOn with
    | nil => exact ⟨[], rfl⟩
    | append_singleton entries entry ih =>
      obtain ⟨before, hbefore⟩ := ih h.of_concat
      have hcollected := (collected_of_some hbefore).1
      have hfiled := h.filed entry (List.mem_append_right _ (List.mem_singleton_self _))
      have hstep : ∃ candidates, addCandidate C s before entry = some candidates := by
        by_cases hpasses : Passes C s entry.txId
        · have hin : entry.txId ∈ passing C s (entries ++ [entry]) :=
            (passing_concat entries entry _).2 (.inr ⟨rfl, hpasses⟩)
          have hsame : ∀ existing, before.lookup (shortIdIn C s entry.txId) = some existing →
              existing.txId = entry.txId := by
            intro existing hexisting
            have hmem := mem_of_lookup hexisting
            refine h.distinct _ ?_ _ hin (hcollected.shortIds _ hmem).1.symm
            exact passing_subset entries entry ((hcollected.ids _).1 ⟨_, hmem, rfl⟩)
          refine ⟨_, addCandidate_some.2 ⟨hfiled, .inr ⟨hpasses, hsame, rfl, ?_⟩⟩⟩
          rw [← (hcollected.put hfiled hpasses hsame).card]
          exact h.few
        · exact ⟨before, addCandidate_some.2 ⟨hfiled, .inl ⟨hpasses, rfl⟩⟩⟩
      obtain ⟨candidates, hstep⟩ := hstep
      refine ⟨candidates, ?_⟩
      rw [List.foldlM_append, hbefore]
      simpa using hstep

/-- What the loop over the short ids has put together. -/
structure Picked (C : Crypto) (s : Sketch) (entries : List MempoolEntry) (ids : List Bytes)
    (acc : List Bytes × Finset Hash) : Prop where
  shortIds : (acc.1.map fun raw => shortIdIn C s (txIdOf C raw)) = ids
  seen : acc.2 = (acc.1.map (txIdOf C)).toFinset
  nodup : (acc.1.map (txIdOf C)).Nodup
  passing : ∀ raw ∈ acc.1, txIdOf C raw ∈ passing C s entries

theorem Collected.picked {entries : List MempoolEntry} {candidates : Candidates} (h : Collected C s entries candidates)
    {ids : List Bytes} {acc : List Bytes × Finset Hash}
    (hpick : ids.foldlM (pickCandidate candidates) ([], ∅) = some acc) : Picked C s entries ids acc := by
  induction ids using List.reverseRecOn generalizing acc with
  | nil =>
    cases hpick
    exact ⟨rfl, rfl, List.nodup_nil, fun raw hraw => (by cases hraw)⟩
  | append_singleton ids id ih =>
    rw [List.foldlM_append, Option.bind_eq_bind, Option.bind_eq_some_iff] at hpick
    obtain ⟨before, hbefore, hstep⟩ := hpick
    have hstep : pickCandidate candidates before id = some acc := by simpa using hstep
    have hbefore := ih hbefore
    unfold pickCandidate at hstep
    rw [Option.bind_eq_bind, Option.bind_eq_some_iff] at hstep
    obtain ⟨candidate, hlookup, hstep⟩ := hstep
    have hmem := mem_of_lookup hlookup
    obtain ⟨hid, hraw⟩ := h.shortIds _ hmem
    split at hstep
    · cases hstep
    · -- an id that was seen before would have ended the loop
      rename_i hnew
      cases hstep
      rw [hbefore.seen, List.mem_toFinset] at hnew
      refine ⟨?_, ?_, ?_, ?_⟩
      · rw [List.map_append, hbefore.shortIds, List.map_singleton, hraw, ← hid]
      · rw [List.map_append, List.map_singleton, hraw, List.toFinset_append, hbefore.seen]
        ext txId
        simp
      · rw [List.map_append, List.map_singleton, hraw, ← List.concat_eq_append]
        exact hbefore.nodup.concat hnew
      · intro raw hmemRaw
        rcases List.mem_append.1 hmemRaw with hmemRaw | hmemRaw
        · exact hbefore.passing raw hmemRaw
        · rw [List.mem_singleton.1 hmemRaw, hraw]
          exact (h.ids _).1 ⟨_, hmem, rfl⟩

end Candidates

/-! ## Announcing what was rebuilt -/

theorem encodeFitting_of {w value : ℕ} (h : value < 256 ^ w) : encodeFitting w value = .ok (le w value) := by
  unfold encodeFitting
  rw [ensure_of _ h]
  rfl

/-- Short ids that are distinct under one width and salt are distinct under the first such. -/
theorem canonicalShortIdParams_returns {txIds : List Hash} {width salt : ℕ} (hwidth : width ∈ shortIdBytesOptions)
    (hsalt : salt < 256) (hnodup : (txIds.map (shortId C width salt)).Nodup) :
    ∃ p, canonicalShortIdParams C txIds = .ok p ∧ p.1 ∈ shortIdBytesOptions ∧ p.2 < 256 := by
  unfold canonicalShortIdParams
  dsimp only
  set options := shortIdBytesOptions.flatMap fun width => (List.range 256).map fun salt => (width, salt) with hoptions
  have hmem : ∀ p : ℕ × ℕ, p ∈ options ↔ p.1 ∈ shortIdBytesOptions ∧ p.2 < 256 := by
    intro p
    rw [hoptions, List.mem_flatMap]
    constructor
    · rintro ⟨w, hw, hp⟩
      obtain ⟨salt, hsalt, rfl⟩ := List.mem_map.1 hp
      exact ⟨hw, List.mem_range.1 hsalt⟩
    · rintro ⟨hw, hlt⟩
      exact ⟨p.1, hw, List.mem_map.2 ⟨p.2, List.mem_range.2 hlt, rfl⟩⟩
  cases hfind : options.find? fun p => decide (txIds.map (shortId C p.1 p.2)).Nodup with
  | none =>
    have hnone := List.find?_eq_none.1 hfind (width, salt) ((hmem _).2 ⟨hwidth, hsalt⟩)
    exact absurd (decide_eq_true hnodup) hnone
  | some p => exact ⟨p, rfl, (hmem p).1 (List.mem_of_find?_eq_some hfind)⟩

theorem ibltChecksum_le (key : IBLTKey) : ibltChecksum C ibltParams key < 2 ^ 32 := by
  unfold ibltChecksum digestPrefix
  have hlt := ofLe_lt ((C.hashBytes (ibltParams.checksumDomain ++ key.bytes)).bytes.take 4)
  have hlength : ((C.hashBytes (ibltParams.checksumDomain ++ key.bytes)).bytes.take 4).length = 4 := by simp
  rw [hlength] at hlt
  exact hlt

theorem sum_checksum_lt (keys : List IBLTKey) :
    ((keys.map (ibltValue C ibltParams)).foldr xorKeys noKeys).2 < 2 ^ 32 := by
  induction keys with
  | nil => exact Nat.two_pow_pos 32
  | cons key keys ih => exact Nat.xor_lt_two_pow (ibltChecksum_le key) ih

/-- The cells of few enough keys fit the wire. -/
theorem encodeCells_returns (badCount badChecksum : PyError) {txIds : List Hash} {cellCount : ℕ} {cells : List IBLTCell}
    (h : buildIblt C txIds cellCount = .ok cells) (hfew : txIds.length ≤ u16Max) :
    ∃ encoded, cells.mapM (encodeIbltCell badCount badChecksum) = .ok encoded ∧ encoded.flatten.length = cellCount * 14 := by
  obtain ⟨hlength, hholds⟩ := length_of_buildIblt h
  have hcell : ∀ cell ∈ cells, encodeIbltCell badCount badChecksum cell =
      .ok (le 2 cell.count.toNat ++ cell.sum.1.bytes ++ le 4 cell.sum.2) := by
    intro cell hcell
    obtain ⟨i, hi, rfl⟩ := List.getElem_of_mem hcell
    have hget := hholds i hi
    rw [List.getElem?_eq_getElem hi, Option.some.injEq] at hget
    rw [hget]
    set keys := Iblt.holding (positionsOf C ibltParams cellCount) (txIds.map ibltKey) i with hkeys
    have hcount : keys.length ≤ u16Max := by
      have hle := List.length_filter_le (fun k => decide (i ∈ positionsOf C ibltParams cellCount k)) (txIds.map ibltKey)
      rw [List.length_map] at hle
      exact hle.trans hfew
    have hsum := sum_checksum_lt (C := C) keys
    unfold encodeIbltCell Iblt.cellOf
    dsimp only
    rw [ensure_of _ ⟨Int.natCast_nonneg _, Int.ofNat_le.2 hcount⟩, ok_bind, ensure_of _ (by unfold u32Max; omega)]
    rfl
  refine ⟨_, mapM_eq_map hcell, ?_⟩
  rw [List.length_flatten, List.map_map, ← hlength]
  refine (List.sum_eq_card_nsmul _ 14 ?_).trans (by rw [List.length_map, smul_eq_mul])
  intro n hn
  obtain ⟨cell, -, rfl⟩ := List.mem_map.1 hn
  simp

theorem length_buildBloom (txIds : List Hash) (bloomBits : ℕ) :
    (buildBloom C txIds bloomBits).length = byteLen bloomBits := by
  have hfold : ∀ (positions : List ℕ) (bloom : Bytes), (positions.foldl setBit bloom).length = bloom.length := by
    intro positions
    induction positions with
    | nil => exact fun _ => rfl
    | cons i positions ih =>
      intro bloom
      rw [List.foldl_cons, ih, setBit, List.length_modify]
  unfold buildBloom
  rw [hfold, List.length_replicate]

theorem length_shortIds_le (txIds : List Hash) (width salt : ℕ) :
    (txIds.map (shortId C width salt)).flatten.length ≤ txIds.length * 32 := by
  rw [List.length_flatten, List.map_map]
  refine (List.sum_le_card_nsmul _ 32 ?_).trans (by rw [List.length_map, smul_eq_mul])
  intro n hn
  obtain ⟨txId, -, rfl⟩ := List.mem_map.1 hn
  simp [shortId, digestPrefix]

/-- **A fruit made of candidates can be announced**, if their keys are distinct. -/
theorem announceFruit_returns (hspreads : Spreads C) {s : Sketch} (hs : WellFormed s) {entries : List MempoolEntry}
    {fruit : Fruit C} {seen : Finset Hash} (hheader : fruit.header = s.header)
    (hpicked : Picked C s entries s.orderedShortIds (fruit.transactions, seen))
    (hkeys : ∀ a ∈ passing C s entries, ∀ b ∈ passing C s entries, ibltKey a = ibltKey b → a = b)
    (hlength : fruit.serialize.length = s.uncompressedLen) : ∃ b, announceFruit fruit = .ok b := by
  set txIds := fruit.transactions.map (txIdOf C) with htxIds
  have hcount : txIds.length = s.txCount := by
    have hids := congrArg List.length hpicked.shortIds
    rw [List.length_map, hs.orderedShortIds] at hids
    rw [htxIds, List.length_map, hids]
  have hshort : (txIds.map (shortId C s.shortIdBytes s.shortIdSalt)).Nodup := by
    have hids := hpicked.shortIds
    have hnodup := hs.nodup
    rw [← hids] at hnodup
    rw [htxIds, List.map_map]
    exact hnodup
  have hdistinct : (txIds.map ibltKey).Nodup := by
    rw [List.nodup_map_iff_inj_on hpicked.nodup]
    intro a ha b hb heq
    obtain ⟨raw, hraw, rfl⟩ := List.mem_map.1 ha
    obtain ⟨raw', hraw', rfl⟩ := List.mem_map.1 hb
    exact hkeys _ (hpicked.passing raw hraw) _ (hpicked.passing raw' hraw') heq
  have htx := hs.txCount
  have hcells := hs.cellCount
  have hheaderLt := hs.header
  have hlen := hs.uncompressedLen
  have hcellCount : canonicalIbltCellCount txIds.length = s.ibltCellCount := by rw [hcount, hs.ibltCellCount]
  have hbloom : canonicalBloomBits txIds.length < 256 ^ 2 := by
    rw [hcount]
    exact hs.bloomBits
  have hu16 : txIds.length ≤ u16Max := by
    unfold u16Max
    omega
  have hmin : ibltHashCount ≤ s.ibltCellCount := by
    rw [hs.ibltCellCount]
    exact le_max_left _ _
  -- the parameters of the sketch tell the ids apart, so the search for some ends
  obtain ⟨⟨width, salt⟩, hparams, hwidth, hsalt⟩ :=
    canonicalShortIdParams_returns hs.shortIdBytes hs.shortIdSalt hshort
  have hwidthLt : width < 256 ^ 1 := by
    have hsmall : ∀ w ∈ shortIdBytesOptions, w < 256 ^ 1 := by decide
    exact hsmall width hwidth
  obtain ⟨cells, hbuild⟩ := buildIblt_returns hspreads hmin (by unfold u16Max; omega) hdistinct
  obtain ⟨encoded, hencoded, hencodedLen⟩ := encodeCells_returns
    (.valueError "serialized IBLT cell count outside uint16 range") (.valueError "value outside uint32 range") hbuild hu16
  have hidsLen := length_shortIds_le (C := C) txIds width salt
  have hbloomLen := length_buildBloom (C := C) txIds (canonicalBloomBits txIds.length)
  -- every field fits its width, and the whole its length
  unfold announceFruit
  dsimp only
  rw [← htxIds, ensure_of _ (by rw [← List.length_map (txIdOf C)]; exact hu16), ok_bind,
    ensure_of _ hpicked.nodup, ok_bind, hparams, ok_bind]
  dsimp only
  rw [hcellCount, hbuild, ok_bind, hheader, encodeFitting_of hheaderLt, ok_bind, encodeFitting_of (by omega), ok_bind,
    encodeFitting_of hbloom, ok_bind, encodeFitting_of (by decide), ok_bind, encodeFitting_of hwidthLt, ok_bind,
    encodeFitting_of hsalt, ok_bind, encodeFitting_of hcells, ok_bind, encodeFitting_of (by decide), ok_bind, hencoded,
    ok_bind, ensure_of, ok_bind]
  · exact ⟨_, rfl⟩
  · unfold u32Max
    unfold byteLen at hbloomLen
    refine ⟨by omega, ?_⟩
    simp only [List.length_append, le_length]
    have hmagic : sketchMagic.length = 4 := rfl
    omega

/-! ## Reconstruction -/

theorem caught_fruit (f : FruitFields) : Caught (Fruit.make (C := C) f) := by
  have hpost : Post (f.postInit C) (fun _ => True) PyError.IsCaught := by
    refine (Post.forM fun raw _ => (Caught.ensure _).post).bind fun _ _ _ => ?_
    refine (Caught.ensure _).post.bind fun _ _ _ => ?_
    refine (Post.ensure fun _ => trivial).bind fun _ _ hsize => ?_
    -- a payload within its bound has few transactions
    have hfew : f.transactions.length ≤ 256 ^ 4 := by
      have hsum := List.card_nsmul_le_sum (f.transactions.map fun raw => 2 + raw.length) 1 (by
        intro n hn
        obtain ⟨raw, -, rfl⟩ := List.mem_map.1 hn
        omega)
      rw [List.length_map, smul_eq_mul] at hsum
      unfold fruitPayloadSizeBytes maxFruitPayloadBytes at hsize
      omega
    have hroot : Post (txMerkleRoot C f.transactions) (fun _ => True) PyError.IsCaught := by
      unfold txMerkleRoot orderedMerkleRoot
      refine (Post.forM fun raw _ => (Caught.ensure _).post).bind fun _ _ _ => ?_
      refine (Caught.ensure _).post.bind fun _ _ _ => ?_
      split
      · exact Post.pure trivial
      · rw [ensure_of _ (by rw [List.length_map]; exact hfew), ok_bind]
        exact Post.pure trivial
    exact hroot.bind fun _ _ _ => (Caught.ensure _).post
  intro e h
  unfold Fruit.make at h
  split at h
  · cases h
  · rename_i e' he'
    cases h
    rw [he'] at hpost
    exact hpost

theorem orNone_ok {α : Type} {x : Except PyError α} {a : α} (h : x = .ok a) : orNone x = .ok (some a) := by
  rw [h]
  rfl

theorem orNone_error {α : Type} {x : Except PyError α} {e : PyError} (h : x = .error e) (hcaught : e.IsCaught) :
    orNone x = .ok none := by
  rw [h]
  cases e with
  | valueError _ => rfl
  | typeError _ => rfl
  | _ => exact hcaught.elim

/-- The entries of a mempool. -/
def entriesOf (mempool : Mempool) : List MempoolEntry := mempool.entries.toList.map Prod.snd

/-- Two transactions of the pool pass the filter of the sketch under one IBLT key, and
nothing makes the receiver give up before it builds its cells. -/
def Ambiguous (C : Crypto) (sketch : Bytes) (mempool : Mempool) : Prop :=
  ∃ s, decodeSketch sketch = .ok s ∧ Admitted C s (entriesOf mempool) ∧
    ∃ a ∈ passing C s (entriesOf mempool), ∃ b ∈ passing C s (entriesOf mempool), a ≠ b ∧ ibltKey a = ibltKey b

section Difference

variable {s : Sketch} {entries : List MempoolEntry} {candidates : Candidates}

theorem Collected.keys_iff (h : Collected C s entries candidates) :
    (((candidates.map Prod.snd).map CandidateTx.txId).map ibltKey).Nodup ↔
      ∀ a ∈ passing C s entries, ∀ b ∈ passing C s entries, ibltKey a = ibltKey b → a = b := by
  have hids : (candidates.map Prod.snd).map CandidateTx.txId = candidates.map fun p => p.2.txId := by
    rw [List.map_map]
    rfl
  rw [hids, List.nodup_map_iff_inj_on h.nodup]
  have hmem : ∀ txId, txId ∈ (candidates.map fun p => p.2.txId) ↔ txId ∈ passing C s entries := by
    intro txId
    rw [← h.toFinset, List.mem_toFinset]
  constructor
  · intro hinj a ha b hb
    exact hinj a ((hmem a).2 ha) b ((hmem b).2 hb)
  · intro hinj a ha b hb
    exact hinj a ((hmem a).1 ha) b ((hmem b).1 hb)

theorem WellFormed.cellBounds (hs : WellFormed s) : ibltHashCount ≤ s.ibltCellCount ∧ s.ibltCellCount ≤ u16Max := by
  constructor
  · rw [hs.ibltCellCount]
    exact le_max_left _ _
  · have hlt := hs.cellCount
    unfold u16Max
    omega

theorem decodeIbltDifference_returns (hspreads : Spreads C) (hs : WellFormed s)
    (h : (((candidates.map Prod.snd).map CandidateTx.txId).map ibltKey).Nodup) :
    ∃ r, decodeIbltDifference C s (candidates.map Prod.snd) = .ok r := by
  obtain ⟨hmin, hmax⟩ := hs.cellBounds
  obtain ⟨cells, hbuild⟩ := buildIblt_returns hspreads hmin hmax h
  have hlength := (length_of_buildIblt hbuild).1
  obtain ⟨difference, hsubtract, hdifference⟩ := subtractIblt_returns (hs.ibltCells.trans hlength.symm)
  obtain ⟨r, hpeel⟩ := peelIblt_returns hspreads hmin hmax (hdifference.trans hlength)
  refine ⟨r, ?_⟩
  unfold decodeIbltDifference
  rw [hbuild, ok_bind, hsubtract, ok_bind, hpeel]

theorem decodeIbltDifference_raises (hs : WellFormed s)
    (h : ¬(((candidates.map Prod.snd).map CandidateTx.txId).map ibltKey).Nodup) :
    decodeIbltDifference C s (candidates.map Prod.snd) = .error (.valueError "duplicate Graphene IBLT keys") := by
  obtain ⟨hmin, hmax⟩ := hs.cellBounds
  unfold decodeIbltDifference
  rw [buildIblt_raises hmin hmax h]
  rfl

end Difference

/-- The last checks: what they return announces the sketch. -/
theorem rebuilt_announces {built fruit : Fruit C} {sketch : Bytes} {length : ℕ}
    (h : (if built.serialize.length ≠ length then return none
      else do
        if (← announceFruit built) ≠ sketch then return none
        return some built : Except PyError (Option (Fruit C))) = .ok (some fruit)) : announceFruit fruit = .ok sketch := by
  split at h
  · cases h
  · obtain ⟨announced, hannounced, h⟩ := bind_ok.1 h
    split at h
    · cases h
    · rename_i hsame
      cases h
      rw [hannounced, not_not.1 hsame]

/-- A fruit that is returned announces the sketch. -/
theorem reconstructFruit_announces {sketch : Bytes} {mempool : Mempool} {fruit : Fruit C}
    (h : reconstructFruit sketch mempool = .ok (some fruit)) : announceFruit fruit = .ok sketch := by
  unfold reconstructFruit at h
  obtain ⟨decoded, -, h⟩ := bind_ok.1 h
  split at h
  · split at h
    · obtain ⟨difference, -, h⟩ := bind_ok.1 h
      split at h
      · split at h
        · cases h
        · split at h
          · obtain ⟨made, -, h⟩ := bind_ok.1 h
            split at h
            · exact rebuilt_announces h
            · cases h
          · cases h
      · cases h
    · cases h
  · cases h

theorem reconstructFruit_raises {sketch : Bytes} {mempool : Mempool} (h : Ambiguous C sketch mempool) :
    reconstructFruit (C := C) sketch mempool = .error (.valueError "duplicate Graphene IBLT keys") := by
  obtain ⟨s, hdecode, hadmitted, a, ha, b, hb, hne, heq⟩ := h
  obtain ⟨candidates, hmatch⟩ := matching_iff.2 hadmitted
  have hcollected := (collected_of_some hmatch).1
  have hkeys : ¬(((candidates.map Prod.snd).map CandidateTx.txId).map ibltKey).Nodup := by
    rw [hcollected.keys_iff]
    intro hinj
    exact hne (hinj a ha b hb heq)
  have hmatching : matchingMempoolCandidates C s mempool = some candidates := hmatch
  unfold reconstructFruit
  rw [orNone_ok hdecode, ok_bind]
  dsimp only
  rw [hmatching]
  dsimp only
  rw [decodeIbltDifference_raises (decodeSketch_wellFormed hdecode) hkeys]
  rfl

theorem reconstructFruit_returns (hspreads : Spreads C) {sketch : Bytes} {mempool : Mempool}
    (h : ¬Ambiguous C sketch mempool) : ∃ r, reconstructFruit (C := C) sketch mempool = .ok r := by
  unfold reconstructFruit
  cases hdecode : decodeSketch sketch with
  | error e =>
    rw [orNone_error rfl (decodeSketch_caught sketch e hdecode)]
    exact ⟨none, rfl⟩
  | ok s =>
    have hs := decodeSketch_wellFormed hdecode
    rw [orNone_ok rfl, ok_bind]
    dsimp only
    cases hmatch : matchingMempoolCandidates C s mempool with
    | none => exact ⟨none, rfl⟩
    | some candidates =>
      obtain ⟨hcollected, hadmitted⟩ := collected_of_some hmatch
      -- two candidates with one key would make the call ambiguous
      have hinj : ∀ a ∈ passing C s (entriesOf mempool), ∀ b ∈ passing C s (entriesOf mempool),
          ibltKey a = ibltKey b → a = b := by
        intro a ha b hb heq
        by_contra hne
        exact h ⟨s, hdecode, hadmitted, a, ha, b, hb, hne, heq⟩
      obtain ⟨difference, hdifference⟩ := decodeIbltDifference_returns hspreads hs (hcollected.keys_iff.2 hinj)
      dsimp only
      rw [hdifference, ok_bind]
      split
      · split
        · exact ⟨none, rfl⟩
        · split
          · rename_i transactions seen hpick
            have hpicked := hcollected.picked hpick
            cases hmake : Fruit.make (C := C) { header := s.header, transactions } with
            | error e =>
              rw [orNone_error rfl (caught_fruit _ e hmake)]
              exact ⟨none, rfl⟩
            | ok fruit =>
              have hfields := Fruit.make_ok.1 hmake
              rw [orNone_ok rfl, ok_bind]
              dsimp only
              by_cases hlength : fruit.serialize.length = s.uncompressedLen
              · rw [if_neg (not_not.2 hlength)]
                have hheader : fruit.header = s.header := by rw [hfields]
                have htransactions : fruit.transactions = transactions := by rw [hfields]
                rw [← htransactions] at hpicked
                -- the last step announces the fruit again, which cannot raise either
                obtain ⟨announced, hannounced⟩ := announceFruit_returns hspreads hs hheader hpicked hinj hlength
                rw [hannounced, ok_bind]
                split
                · exact ⟨none, rfl⟩
                · exact ⟨some fruit, rfl⟩
              · rw [if_pos hlength]
                exact ⟨none, rfl⟩
          · exact ⟨none, rfl⟩
      · exact ⟨none, rfl⟩

/-- **Reconstruction is total but for one case.** It returns, and what it returns announces
the sketch, exactly if no two transactions of the pool that pass the filter of the sketch have
the same IBLT key, or the receiver gives up before that. -/
theorem reconstructFruit_total_iff (hspreads : Spreads C) (sketch : Bytes) (mempool : Mempool) :
    (∃ r : Option (Fruit C), reconstructFruit sketch mempool = .ok r ∧
      ∀ fruit, r = some fruit → announceFruit fruit = .ok sketch) ↔ ¬Ambiguous C sketch mempool := by
  constructor
  · rintro ⟨r, hr, -⟩ hambiguous
    rw [reconstructFruit_raises hambiguous] at hr
    cases hr
  · intro h
    obtain ⟨r, hr⟩ := reconstructFruit_returns hspreads h
    refine ⟨r, hr, ?_⟩
    rintro fruit rfl
    exact reconstructFruit_announces hr

/-! ## Two transactions under one key -/

/-- A hash that moves the last two bytes to the front, and the one before them to the end. -/
def tailHash (b : Bytes) : Hash :=
  FixedBytes.ofNat 32 (ofLe (b.drop (b.length - 2)) + 256 ^ 31 * ((b.drop (b.length - 3)).headD 0).val)

def tailCrypto : Crypto := ⟨tailHash, fun _ _ _ => true⟩

theorem take_le (m k n : ℕ) : (le (m + k) n).take m = le m n := by
  induction m generalizing n with
  | zero => rfl
  | succ m ih =>
    rw [Nat.add_right_comm]
    simp only [le, List.take_succ_cons, ih]

/-- Under this hash the attempts are their own positions. -/
theorem ibltPosition_tail (key : IBLTKey) (cellCount : ℕ) {attempt : ℕ} (h : attempt < 256 ^ 2) :
    ibltPosition tailCrypto ibltParams key cellCount attempt = attempt % cellCount := by
  unfold ibltPosition digestPrefix
  set data := ibltParams.positionDomain ++ key.bytes ++ le 2 attempt with hdata
  have hlast : data.drop (data.length - 2) = le 2 attempt := by
    rw [hdata, List.length_append, le_length, Nat.add_sub_cancel, List.drop_left]
  have hhash : ((tailCrypto.hashBytes data).bytes.take 4) =
      le 4 (ofLe (data.drop (data.length - 2)) + 256 ^ 31 * ((data.drop (data.length - 3)).headD 0).val) :=
    take_le 4 28 _
  rw [hhash, ofLe_le, hlast, ofLe_le_of_lt h]
  congr 1
  omega

theorem spreads_tail : Spreads tailCrypto := by
  intro cellCount key hmin hmax
  have hthree : 3 ≤ cellCount := hmin
  have hzero : ibltPosition tailCrypto ibltParams key cellCount 0 = 0 := by
    rw [ibltPosition_tail key cellCount (by decide), Nat.zero_mod]
  have hone : ibltPosition tailCrypto ibltParams key cellCount 1 = 1 := by
    rw [ibltPosition_tail key cellCount (by decide), Nat.mod_eq_of_lt (by omega)]
  have htwo : ibltPosition tailCrypto ibltParams key cellCount 2 = 2 := by
    rw [ibltPosition_tail key cellCount (by decide), Nat.mod_eq_of_lt (by omega)]
  refine placed_of (r := [0, 1, 2]) ?_
  unfold ibltPositions requireIbltCellCount
  rw [ensure_of _ ⟨hmin, hmax⟩, ok_bind]
  change ibltPositionsLoop tailCrypto ibltParams key cellCount (65532 + 1 + 1 + 1 + 1) [] = _
  rw [ibltPositionsLoop, if_neg (by decide)]
  dsimp only
  rw [show u16Max - (65532 + 1 + 1 + 1) = 0 from rfl, hzero, if_neg (by decide), ibltPositionsLoop, if_neg (by decide)]
  dsimp only
  rw [show u16Max - (65532 + 1 + 1) = 1 from rfl, hone, if_neg (by decide), ibltPositionsLoop, if_neg (by decide)]
  dsimp only
  rw [show u16Max - (65532 + 1) = 2 from rfl, htwo, if_neg (by decide), ibltPositionsLoop, if_pos (by decide)]
  rfl

/-- Two spends whose ids differ in their last byte. -/
def twin (i : Fin 2) : Transaction :=
  ⟨⟨0, 0, 0, 0, [zeroInput], [⟨⟨1, .pkh, 0, 0, List.replicate 29 0 ++ [Fin.ofNat 256 (i.val + 1), 0, 0]⟩,
    by fin_cases i <;> decide +kernel⟩]⟩, by fin_cases i <;> decide +kernel⟩

/-- The entry of such a spend. -/
def twinEntry (i : Fin 2) : MempoolEntry :=
  ⟨twin i, (twin i).txId tailCrypto, rootShardId, (twin i).toBytes.length, 0, 0⟩

/-- A sketch of one transaction, whose filter lets both through. -/
def hostileSketch : Bytes :=
  let header := spendingFruit.header.serialize
  let body := sketchMagic ++ le 2 header.length ++ header ++ le 2 1 ++ le 2 8 ++ le 1 3 ++ le 1 2 ++ le 1 0 ++ le 2 3 ++
    le 1 3 ++ [1] ++ List.replicate 42 0 ++ [0, 0]
  le 2 codecGraphene ++ le 4 1000 ++ le 4 body.length ++ body

/-- A mempool that holds both. -/
def twinPool : Mempool := ((Mempool.new .root ∅).insertEntry (twinEntry 0)).insertEntry (twinEntry 1)

/-- Both spends pass the filter, under one key: the receiver raises. -/
theorem reconstructFruit_twins_raises : ¬∃ r : Option (Fruit tailCrypto),
    reconstructFruit hostileSketch twinPool = .ok r ∧
      ∀ fruit, r = some fruit → announceFruit fruit = .ok hostileSketch := by
  rintro ⟨r, hr, -⟩
  have hraises : (reconstructFruit (C := tailCrypto) hostileSketch twinPool).isOk = false := by decide +kernel
  rw [hr] at hraises
  cases hraises

/-- One of them alone is no reason to raise. -/
theorem reconstructFruit_twin_returns : ∃ r : Option (Fruit tailCrypto),
    reconstructFruit hostileSketch ((Mempool.new .root ∅).insertEntry (twinEntry 0)) = .ok r ∧
      ∀ fruit, r = some fruit → announceFruit fruit = .ok hostileSketch := by
  refine (reconstructFruit_total_iff spreads_tail _ _).2 ?_
  rintro ⟨s, -, -, a, ha, b, hb, hne, -⟩
  have hentries : entriesOf ((Mempool.new .root ∅).insertEntry (twinEntry 0)) = [twinEntry 0] := by decide +kernel
  have hone : ∀ c ∈ passing tailCrypto s [twinEntry 0], c = (twinEntry 0).txId := by
    intro c hc
    obtain ⟨⟨entry, hentry, rfl⟩, -⟩ := mem_passing.1 hc
    rw [List.mem_singleton.1 hentry]
  rw [hentries] at ha hb
  exact hne ((hone a ha).trans (hone b hb).symm)

end Graphene

end TensorPow
