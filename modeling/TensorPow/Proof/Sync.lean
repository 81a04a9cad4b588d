import TensorPow.Proof.Codec
import TensorPow.Proof.Commitment
import TensorPow.Proof.Iblt
import TensorPow.Spec.Sync

/-!
# When a UTXO diff can be applied

A diff lists the outputs to remove and to add, and the receiver checks that its IBLT peels
to the keys of exactly these changes. The builder checks only that the keys are distinct.

* `peelIblt_sketch`: what peeling the cells of a set of keys comes to.
* `decode_sealed`: decoding gives back what was encoded, up to the check of the IBLT.
* `applyChanges`: removing and adding the listed outputs gives the target set.
* `utxoDiff_reconciles`: a diff can be applied exactly if it is a snapshot or its keys can
  be peeled.
-/

namespace TensorPow

open Wire Sorted

/-- An unspent output is read back from its bytes. -/
theorem UTXO.decode_toBytes (u : UTXO) : UTXO.decode u.toBytes = .ok u := by
  -- the key is checked last, so the two decoders agree where it is right
  let C : Crypto := ⟨fun _ => genesisParentHash, fun _ _ _ => true⟩
  have hkeyed : UTXO.fromBytes C u.toBytes (u.outpoint.key C) = (do
      let v ← UTXO.decode u.toBytes
      Exn.ensure (v.outpoint.key C = u.outpoint.key C) (.valueError "UTXO outpoint does not match expected key")
      return v) := by
    unfold UTXO.fromBytes UTXO.decode
    simp only [bind_assoc]
  rw [UTXO.fromBytes_toBytes] at hkeyed
  obtain ⟨v, hv, hback⟩ := Exn.bind_ok.1 hkeyed.symm
  obtain ⟨_, -, hback⟩ := Exn.bind_ok.1 hback
  cases hback
  exact hv

namespace Sync

variable {C : Crypto}

/-! ## Peeling -/

/-- The cell of one key holds the key. -/
theorem sum_single (k : IBLTKey) :
    (Iblt.cellOf xorKeys noKeys (ibltValue C ibltParams) [k]).sum = ibltValue C ibltParams k := by
  show xorKeys (ibltValue C ibltParams k) noKeys = _
  rw [xorKeys_selfInverse.comm, xorKeys_selfInverse.zero_op]

/-- The peeler recognises the cells of one key and of none. -/
theorem peels {m : ℕ} {keys : List IBLTKey} (hplaced : ∀ k ∈ keys, Placed C ibltParams m k) :
    Iblt.Peels xorKeys noKeys (ibltValue C ibltParams) (positionsOf C ibltParams m) (peeler C) m keys where
  isPure l := by
    show decide _ = true ↔ _
    rw [decide_eq_true_iff]
    constructor
    · rintro ⟨hcount, -⟩
      have hlen : l.length = 1 := by
        have hcount : (l.length : ℤ) = 1 := hcount
        omega
      exact List.length_eq_one_iff.1 hlen
    · rintro ⟨k, rfl⟩
      rw [sum_single]
      exact ⟨rfl, rfl⟩
  isEmpty l := by
    show decide _ = true ↔ _
    rw [decide_eq_true_iff]
    constructor
    · rintro ⟨hcount, -⟩
      have hlen : l.length = 0 := by
        have hcount : (l.length : ℤ) = 0 := hcount
        omega
      exact List.eq_nil_of_length_eq_zero hlen
    · rintro rfl
      exact ⟨rfl, rfl⟩
  cellKey k := by
    show (Iblt.cellOf xorKeys noKeys (ibltValue C ibltParams) [k]).sum.1 = k
    rw [sum_single]
    rfl
  peelDelta _ := rfl
  applyKey cells k hlen hk := by
    subst hlen
    exact applyIbltKey_of (.inl rfl) (hplaced k hk)
  nodup k hk := (hplaced k hk).ok.1.nodup
  lt k hk := (hplaced k hk).ok.1.lt
  touches k hk := (hplaced k hk).ok.2

/-- The keys can be peeled from `m` cells. -/
abbrev PeelsFrom (C : Crypto) (m : ℕ) (keys : List IBLTKey) : Prop := Iblt.Peelable (positionsOf C ibltParams m) keys

/-- Peeling the cells of distinct keys gives the keys back, or fails if they cannot be
peeled. -/
theorem peelIblt_sketch {m : ℕ} {keys : List IBLTKey} {cells : List IBLTCell} (hlen : cells.length = m)
    (hplaced : ∀ k ∈ keys, Placed C ibltParams m k) (hs : HoldsKeys C ibltParams m cells keys) (hnodup : keys.Nodup)
    (hle : keys.length ≤ m) :
    (PeelsFrom C m keys ∧ peelIblt C cells = .ok (some (sortBy id keys))) ∨
      (¬PeelsFrom C m keys ∧ peelIblt C cells = .ok none) := by
  have hout : Iblt.Outcome (positionsOf C ibltParams m) keys [] (Iblt.peelLoop (peeler C) cells.length cells []) :=
    Iblt.peelLoop_sketch xorKeys_selfInverse (peels hplaced) hlen hs (fun k hk => hk) hnodup (by omega)
  unfold peelIblt
  rcases hout with ⟨hpeel, l', hperm, hr⟩ | ⟨hpeel, hr⟩
  · refine .inl ⟨hpeel, ?_⟩
    rw [hr, Exn.ok_bind]
    have hfst : (l'.map fun k => (k, (-1 : ℤ))).map Prod.fst = l' := by
      rw [List.map_map]
      exact List.map_id l'
    have hsorted : sortBy id l' = sortBy id keys := sortBy_perm (fun a _ b _ hab => hab) hperm
    rw [List.nil_append, Option.map_some, hfst, hsorted]
    rfl
  · refine .inr ⟨hpeel, ?_⟩
    rw [hr]
    rfl

/-! ## Decoding what was encoded -/

/-- The bytes of a diff between the magic and the checksum. -/
def content (baseRoot targetRoot : Hash) (removeCount addCount cellCount hashCount : ℕ) (body : Bytes) : Bytes :=
  baseRoot.bytes ++ (targetRoot.bytes ++ (le 4 removeCount ++ (le 4 addCount ++ (le 2 cellCount ++
    (le 1 hashCount ++ body)))))

section Sealed

variable {baseRoot targetRoot : Hash} {removeCount addCount cellCount hashCount : ℕ} {body d : Bytes}
  {maxEntries maxBytes : ℤ}

/-- What the end of both encoders has checked and written. -/
theorem sealDiff_ok
    (h : sealDiff C baseRoot targetRoot removeCount addCount cellCount hashCount body maxBytes = .ok d) :
    (removeCount < 256 ^ 4 ∧ addCount < 256 ^ 4 ∧ cellCount < 256 ^ 2) ∧ (d.length : ℤ) ≤ maxBytes ∧
      d = utxoDiffMagic ++ content baseRoot targetRoot removeCount addCount cellCount hashCount body ++
        (diffChecksum C (utxoDiffMagic ++
          content baseRoot targetRoot removeCount addCount cellCount hashCount body)).bytes := by
  unfold sealDiff at h
  obtain ⟨removed, hremoved, h⟩ := Exn.bind_ok.1 h
  obtain ⟨added, hadded, h⟩ := Exn.bind_ok.1 h
  obtain ⟨cells, hcells, h⟩ := Exn.bind_ok.1 h
  obtain ⟨_, hfits, h⟩ := Exn.bind_ok.1 h
  cases h
  obtain ⟨hr, rfl⟩ := encodeUint_ok hremoved
  obtain ⟨ha, rfl⟩ := encodeUint_ok hadded
  obtain ⟨hc, rfl⟩ := encodeUint_ok hcells
  refine ⟨⟨hr, ha, hc⟩, Exn.ensure_ok.1 hfits, ?_⟩
  unfold content
  simp only [List.append_assoc]

/-- Decoding a sealed diff: only the records and the cells are left to check. -/
theorem decode_sealed
    (h : sealDiff C baseRoot targetRoot removeCount addCount cellCount hashCount body maxBytes = .ok d)
    (hlimits : requireDiffLimits maxEntries maxBytes = .ok ()) {cells : List IBLTCell} {decoded : DecodedUTXODiff}
    (hread : readDiff maxEntries (content baseRoot targetRoot removeCount addCount cellCount hashCount body) =
      .ok ((cells, decoded), [])) :
    decodeUtxoDiff C d maxEntries maxBytes = (do
      requireCanonicalRecords decoded.removals decoded.additions maxEntries
      if decoded.fullSnapshot = false then validateIbltSketch C cells decoded
      return decoded) := by
  obtain ⟨-, hfits, hd⟩ := sealDiff_ok h
  generalize hcontent : content baseRoot targetRoot removeCount addCount cellCount hashCount body = rest at hread hd
  have hrest : 32 + (32 + (4 + (4 + (2 + 1)))) ≤ rest.length := by
    rw [← hcontent]
    unfold content
    simp only [List.length_append, FixedBytes.length_bytes, le_length]
    omega
  have hlen : d.length = 8 + rest.length + 32 := by
    rw [hd]
    simp [utxoDiffMagic]
    omega
  -- the checksum is cut off, the magic checked, the rest read
  have htake : d.take (d.length - hashLenBytes) = utxoDiffMagic ++ rest := by
    rw [hlen, hd]
    exact List.take_left' (by simp [utxoDiffMagic, hashLenBytes]; omega)
  have hdrop : d.drop (d.length - hashLenBytes) = (diffChecksum C (utxoDiffMagic ++ rest)).bytes := by
    rw [hlen, hd]
    exact List.drop_left' (by simp [utxoDiffMagic, hashLenBytes]; omega)
  have hparse : Reader.parse (readDiff maxEntries) ((utxoDiffMagic ++ rest).drop utxoDiffMagic.length) =
      .ok (cells, decoded) := by
    rw [List.drop_left]
    exact Reader.parse_ok.2 ⟨[], hread⟩
  unfold decodeUtxoDiff
  dsimp only
  rw [hlimits, Exn.ok_bind, Exn.ensure_of _ hfits, Exn.ok_bind, Exn.ensure_of _ (by unfold utxoDiffFixedBytes; omega),
    Exn.ok_bind, htake, hdrop, Exn.ensure_of _ (List.take_left ..), Exn.ok_bind, Exn.ensure_of _ rfl, Exn.ok_bind,
    hparse]
  rfl

end Sealed

/-- A removal is read back. -/
theorem reads_removal (r : RemoveRecord) : Reads readRemoval r (r.outpoint.toBytes ++ r.valueHash.bytes) := by
  have hindex : r.outpoint.outputIndex < 256 ^ 4 := lt_of_le_u32 r.outpoint.index_le
  have hmake : Outpoint.make r.outpoint.txId r.outpoint.outputIndex = .ok r.outpoint := dif_pos r.outpoint.index_le
  unfold readRemoval Outpoint.toBytes
  rw [List.append_assoc]
  refine (Reads.fixed _ _).bind ((Reads.uint _ hindex).bind ?_)
  rw [← List.append_nil r.valueHash.bytes]
  refine (Reads.fixed _ _).bind ?_
  rw [← List.append_nil ([] : Bytes)]
  exact (Reads.lift hmake).bind (Reads.pure _)

/-- An addition is read back. -/
theorem reads_addition {u : UTXO} {b : Bytes} (h : encodeAddition u = .ok b) : Reads readAddition u b := by
  unfold encodeAddition at h
  obtain ⟨_, hmax, h⟩ := Exn.bind_ok.1 h
  obtain ⟨length, hlength, h⟩ := Exn.bind_ok.1 h
  cases h
  obtain ⟨hlt, rfl⟩ := encodeUint_ok hlength
  have hbounds : UTXO.fixedBytes ≤ u.toBytes.length ∧ u.toBytes.length ≤ maxUtxoDiffAddBytes := by
    refine ⟨?_, Exn.ensure_ok.1 hmax⟩
    simp [UTXO.toBytes, Outpoint.toBytes, UTXO.fixedBytes]
    omega
  have hdata : Reads (do
      let data ← Reader.take (truncatedIn "addition bytes") u.toBytes.length
      Reader.lift (UTXO.decode data)) u u.toBytes := by
    have htake := (Reads.take (truncatedIn "addition bytes") (Eq.refl u.toBytes.length)).bind
      (f := fun data => Reader.lift (UTXO.decode data)) (Reads.lift u.decode_toBytes)
    rwa [List.append_nil] at htake
  refine (Reads.uint _ hlt).bind ?_
  exact (Reads.lift (Exn.ensure_of _ hbounds)).bind hdata

/-- The bytes of the removals. -/
def removalBytes (removals : List RemoveRecord) : Bytes :=
  removals.flatMap fun r => r.outpoint.toBytes ++ r.valueHash.bytes

/-- The content of a diff with cells is read back. -/
theorem read_compact {D : DecodedUTXODiff} {cells : List IBLTCell} {cellBytes addBytes : List Bytes} {maxEntries : ℤ}
    (hsmall : D.removals.length < 256 ^ 4 ∧ D.additions.length < 256 ^ 4 ∧ cells.length < 256 ^ 2)
    (hentries : ((D.removals.length + D.additions.length : ℕ) : ℤ) ≤ maxEntries)
    (hcount : canonicalIbltCellCount (D.removals.length + D.additions.length) = .ok cells.length)
    (hcells : cells.mapM encodeCell = .ok cellBytes) (hadds : D.additions.mapM encodeAddition = .ok addBytes)
    (hcompact : D.fullSnapshot = false) :
    readDiff maxEntries (content D.baseRoot D.targetRoot D.removals.length D.additions.length cells.length
      ibltHashCount (cellBytes.flatten ++ (removalBytes D.removals ++ addBytes.flatten))) = .ok ((cells, D), []) := by
  obtain ⟨hremove, hadd, hcell⟩ := hsmall
  have hfull : decide (cells.length = 0 ∧ ibltHashCount = 0) = false := by simp [ibltHashCount]
  have hremovals : Reads (Reader.replicate readRemoval D.removals.length) D.removals (removalBytes D.removals) :=
    Reads.replicate fun r _ => reads_removal r
  unfold readDiff content
  refine (Reads.fixed _ _).run_bind ((Reads.fixed _ _).run_bind ((Reads.uint _ hremove).run_bind ?_))
  refine (Reads.uint _ hadd).run_bind ((Reads.uint _ hcell).run_bind ((Reads.uint _ (by decide)).run_bind ?_))
  rw [hfull]
  refine Reads.run_bind (b := []) (x := ()) (Reads.lift ?_) ?_
  · rw [Exn.ensure_of _ hentries, Exn.ok_bind, Exn.ensure_of _ (fun h => by cases h), Exn.ok_bind, if_pos rfl,
      Exn.ensure_of _ rfl, Exn.ok_bind, hcount, Exn.ok_bind, Exn.ensure_of _ rfl]
  · rw [if_neg (by decide)]
    refine (Reads.mapM (fun h => reads_cell h _) hcells).run_bind (hremovals.run_bind ?_)
    rw [← List.append_nil addBytes.flatten]
    refine (Reads.mapM reads_addition hadds).run_bind ?_
    rw [← hcompact]
    rfl

/-- The content of a snapshot is read back. -/
theorem read_snapshot {D : DecodedUTXODiff} {addBytes : List Bytes} {maxEntries : ℤ}
    (hsmall : D.additions.length < 256 ^ 4) (hentries : ((0 + D.additions.length : ℕ) : ℤ) ≤ maxEntries)
    (hadds : D.additions.mapM encodeAddition = .ok addBytes) (hnone : D.removals = [])
    (hsnapshot : D.fullSnapshot = true) :
    readDiff maxEntries (content D.baseRoot D.targetRoot 0 D.additions.length 0 0 addBytes.flatten) =
      .ok (([], D), []) := by
  unfold readDiff content
  refine (Reads.fixed _ _).run_bind ((Reads.fixed _ _).run_bind ((Reads.uint _ (by decide)).run_bind ?_))
  refine (Reads.uint _ hsmall).run_bind ((Reads.uint _ (by decide)).run_bind ((Reads.uint _ (by decide)).run_bind ?_))
  refine Reads.run_bind (b := []) (x := ()) (Reads.lift ?_) ?_
  · rw [Exn.ensure_of _ hentries, Exn.ok_bind, Exn.ensure_of _ (fun _ => rfl)]
    rfl
  · refine Reads.run_bind (b := []) (x := []) (Reads.pure []) (Reads.run_bind (b := []) (x := []) (Reads.pure []) ?_)
    rw [← List.append_nil addBytes.flatten]
    refine (Reads.mapM reads_addition hadds).run_bind ?_
    obtain ⟨baseRoot, targetRoot, removals, additions, fullSnapshot⟩ := D
    cases hnone
    cases hsnapshot
    rfl

/-! ## The changes between two sets -/

theorem merkleRootOf_eq (s : UTXOSet C) : merkleRootOf s = .ok s.plainRoot := by
  obtain ⟨s', hrun, -⟩ := CachedSet.merkleRoot_keeps s _ (CachedSet.current_fresh s)
  unfold merkleRootOf
  rw [hrun]

variable (L T : UTXOSet C)

/-- The outputs of one set that the other one does not have. -/
def missing : List UTXO := L.entries.filter fun u => T.get u.outpoint = none

/-- The record of a removal. -/
def recordOf (C : Crypto) (u : UTXO) : RemoveRecord := ⟨u.outpoint, u.valueHash C⟩

/-- The keys of all changes. -/
def diffKeys : List IBLTKey := recordKeys C ((missing L T).map (recordOf C)) (missing T L)

variable {L T}

/-- The loop over the local outputs lists the removals; outputs of both sets are equal. -/
theorem addRemovals_ok {removals : List RemoveRecord} (h : L.entries.foldlM (addRemoval T) [] = .ok removals) :
    removals = (missing L T).map (recordOf C) ∧
      ∀ o u v, L.get o = some u → T.get o = some v → u = v := by
  have hloop : removals = (missing L T).map (recordOf C) ∧
      ∀ u ∈ L.entries, ∀ v, T.get u.outpoint = some v → u = v := by
    refine Exn.foldlM_inv (fun done acc => acc = (done.filter fun u => T.get u.outpoint = none).map (recordOf C) ∧
      ∀ u ∈ done, ∀ v, T.get u.outpoint = some v → u = v) ?_ ⟨rfl, fun u hu => (by cases hu)⟩ h
    rintro done u todo acc acc' - ⟨hacc, hsame⟩ hstep
    unfold addRemoval at hstep
    split at hstep
    · rename_i hnone
      cases hstep
      refine ⟨?_, fun w hw v hv => ?_⟩
      · rw [List.filter_append, List.map_append, hacc, List.filter_cons_of_pos (by simpa using hnone)]
        rfl
      · rcases List.mem_append.1 hw with hw | hw
        · exact hsame w hw v hv
        · rw [List.mem_singleton.1 hw, hnone] at hv
          cases hv
    · rename_i v hv
      split at hstep
      · cases hstep
      · rename_i heq
        cases hstep
        -- an outpoint in both sets must hold the same output, or the build raises
        have huv : u = v := UTXO.toBytes_injective (not_not.1 heq).symm
        refine ⟨?_, fun w hw v' hv' => ?_⟩
        · rw [List.filter_append, hacc, List.filter_cons_of_neg (by simp [hv])]
          simp
        · rcases List.mem_append.1 hw with hw | hw
          · exact hsame w hw v' hv'
          · rw [List.mem_singleton.1 hw] at hv' ⊢
            rw [hv] at hv'
            cases hv'
            exact huv
  refine ⟨hloop.1, fun o u v hu hv => ?_⟩
  have ho := UTXOSet.outpoint_of_get hu
  subst ho
  exact hloop.2 u (UTXOSet.mem_entries.2 hu) v hv

/-! ## Applying the changes -/

/-- Records that match are removed. -/
theorem applyRemovals_of {l : List UTXO} {s s' : UTXOSet C} (hpresent : ∀ u ∈ l, s.get u.outpoint = some u)
    (h : (l.map fun u => u.outpoint).foldlM UTXOSet.remove s = .ok s') :
    (l.map (recordOf C)).foldlM applyRemoval s = .ok s' := by
  induction l generalizing s with
  | nil => exact h
  | cons u l ih =>
    obtain ⟨t, ht, hrest⟩ := Exn.foldlM_cons_ok.1 h
    have hnodup := (UTXOSet.removeAll_ok h).1
    rw [List.map_cons, List.nodup_cons] at hnodup
    refine Exn.foldlM_cons_ok.2 ⟨t, ?_, ih (fun v hv => ?_) hrest⟩
    · unfold applyRemoval recordOf
      rw [hpresent u List.mem_cons_self, Exn.get_some, Exn.ok_bind, Exn.ensure_of _ rfl, Exn.ok_bind]
      exact ht
    · have hne : u.outpoint ≠ v.outpoint := fun e => hnodup.1 (List.mem_map.2 ⟨v, hv, e.symm⟩)
      rw [UTXOSet.get_remove ht, if_neg hne]
      exact hpresent v (List.mem_cons_of_mem _ hv)

/-- Outputs that can be added are added. -/
theorem applyAdditions_of {l : List UTXO} {s s' : UTXOSet C} (h : l.foldlM UTXOSet.add s = .ok s') :
    l.foldlM applyAddition s = .ok s' := by
  induction l generalizing s with
  | nil => exact h
  | cons u l ih =>
    obtain ⟨t, ht, hrest⟩ := Exn.foldlM_cons_ok.1 h
    refine Exn.foldlM_cons_ok.2 ⟨t, ?_, ih hrest⟩
    unfold applyAddition
    rw [Exn.ensure_of _ (UTXOSet.add_ok_iff.1 ht).1, Exn.ok_bind]
    exact ht

theorem mem_missing {u : UTXO} : u ∈ missing L T ↔ L.get u.outpoint = some u ∧ T.get u.outpoint = none := by
  unfold missing
  rw [List.mem_filter, UTXOSet.mem_entries, decide_eq_true_iff]

theorem nodup_missing : ((missing L T).map fun u => u.outpoint).Nodup :=
  L.nodup_entries.sublist ((List.filter_sublist).map _)

/-- **Removing and adding the listed outputs** gives the target set. -/
theorem applyChanges (hsame : ∀ o u v, L.get o = some u → T.get o = some v → u = v) :
    ∃ M, ((missing L T).map (recordOf C)).foldlM applyRemoval L = .ok M ∧ (missing T L).foldlM applyAddition M = .ok T := by
  obtain ⟨M, hM⟩ := UTXOSet.removeAll_returns (s := L) nodup_missing fun o ho => by
    obtain ⟨u, hu, rfl⟩ := List.mem_map.1 ho
    exact ⟨u, (mem_missing.1 hu).1⟩
  obtain ⟨-, -, hgone, hkept, -⟩ := UTXOSet.removeAll_ok hM
  -- what is left is in the target
  have hleft : ∀ o u, M.get o = some u → L.get o = some u ∧ T.get o = some u := by
    intro o u hu
    have hnot : o ∉ (missing L T).map fun u => u.outpoint := by
      intro ho
      rw [hgone o ho] at hu
      cases hu
    rw [hkept o hnot] at hu
    refine ⟨hu, ?_⟩
    cases hT : T.get o with
    | none =>
      have ho := UTXOSet.outpoint_of_get hu
      refine absurd (List.mem_map.2 ⟨u, mem_missing.2 ?_, ho⟩) hnot
      rw [ho]
      exact ⟨hu, hT⟩
    | some v => rw [hsame o u v hu hT]
  have hinj : Set.InjOn (Outpoint.key C) {o | ∃ u, T.get o = some u} := by
    rintro o₁ ⟨u₁, h₁⟩ o₂ ⟨u₂, h₂⟩ hk
    exact UTXOSet.key_injOn h₁ h₂ hk
  have hfresh : ∀ u ∈ missing T L, M.get u.outpoint = none := by
    intro u hu
    by_contra hne
    obtain ⟨v, hv⟩ := Option.ne_none_iff_exists'.1 hne
    have hnone := (mem_missing.1 hu).2
    rw [(hleft _ v hv).1] at hnone
    cases hnone
  obtain ⟨T', hT'⟩ := UTXOSet.addAll_returns nodup_missing hfresh hinj (fun o u hu => ⟨u, (hleft o u hu).2⟩)
    fun u hu => ⟨u, (mem_missing.1 hu).1⟩
  obtain ⟨-, -, hnew, hold, -⟩ := UTXOSet.addAll_ok hT'
  have htarget : T' = T := by
    refine UTXOSet.ext_get fun o => ?_
    by_cases ho : o ∈ (missing T L).map fun u => u.outpoint
    · obtain ⟨u, hu, rfl⟩ := List.mem_map.1 ho
      rw [hnew u hu, (mem_missing.1 hu).1]
    · rw [hold o ho]
      cases hT : T.get o with
      | none =>
        by_contra hne
        obtain ⟨v, hv⟩ := Option.ne_none_iff_exists'.1 hne
        rw [(hleft o v hv).2] at hT
        cases hT
      | some v =>
        have hov := UTXOSet.outpoint_of_get hT
        subst hov
        -- the output is there already, or it would be listed
        have hL : L.get v.outpoint = some v := by
          cases hL : L.get v.outpoint with
          | none => exact absurd (List.mem_map.2 ⟨v, mem_missing.2 ⟨hT, hL⟩, rfl⟩) ho
          | some u => rw [hsame _ u v hL hT]
        rw [hkept _ fun hmem => ?_, hL]
        obtain ⟨u, hu, huv⟩ := List.mem_map.1 hmem
        have hnone := (mem_missing.1 hu).2
        rw [huv, hT] at hnone
        cases hnone
  rw [htarget] at hT'
  exact ⟨M, applyRemovals_of (fun u hu => (mem_missing.1 hu).1) hM, applyAdditions_of hT'⟩

section Apply

variable {D : DecodedUTXODiff} {d : Bytes} {maxEntries maxBytes : ℤ}

/-- What `apply_utxo_diff` does after decoding. -/
theorem apply_decoded (hlimits : requireDiffLimits maxEntries maxBytes = .ok ())
    (hdecode : decodeUtxoDiff C d maxEntries maxBytes = .ok D) (hbase : D.baseRoot = L.plainRoot)
    (htarget : D.targetRoot = T.plainRoot) {start M : UTXOSet C}
    (hstart : startSet L D.fullSnapshot = .ok start)
    (hremoved : D.removals.foldlM applyRemoval start = .ok M) (hadded : D.additions.foldlM applyAddition M = .ok T) :
    applyUtxoDiff L d maxEntries maxBytes = .ok T := by
  unfold applyUtxoDiff
  rw [hlimits, Exn.ok_bind, hdecode, Exn.ok_bind, merkleRootOf_eq, Exn.ok_bind, Exn.ensure_of _ hbase.symm,
    Exn.ok_bind, hstart, Exn.ok_bind, hremoved, Exn.ok_bind, hadded, Exn.ok_bind, merkleRootOf_eq, Exn.ok_bind,
    Exn.ensure_of _ htarget.symm]
  rfl

/-- A diff that fails to decode cannot be applied. -/
theorem apply_undecoded {e : PyError} (hdecode : decodeUtxoDiff C d maxEntries maxBytes = .error e) (r : UTXOSet C) :
    applyUtxoDiff L d maxEntries maxBytes ≠ .ok r := by
  intro h
  unfold applyUtxoDiff at h
  obtain ⟨_, -, h⟩ := Exn.bind_ok.1 h
  rw [hdecode] at h
  cases h

end Apply

/-! ## Errors of the encoder -/

/-- An error other than that of colliding keys. -/
def Other (e : PyError) : Prop := e ≠ duplicateChangeKeys

theorem applyIbltKey_post (cells : List IBLTCell) (key : IBLTKey) (delta : ℤ) :
    Exn.Post (applyIbltKey C ibltParams cells key delta) (fun _ => True) Other := by
  have hloop : ∀ left positions, Exn.Post (ibltPositionsLoop C ibltParams key cells.length left positions)
      (fun _ => True) Other := by
    intro left
    induction left with
    | zero => exact fun _ => Exn.Post.error (by unfold Other; decide)
    | succ left ih =>
      intro positions
      unfold ibltPositionsLoop
      split
      · exact Exn.Post.ok trivial
      · exact ih _
  unfold applyIbltKey ibltPositions requireIbltCellCount
  refine (Exn.Post.ensure fun _ => by unfold Other; decide).bind fun _ _ _ => ?_
  refine Exn.Post.bind (P := fun _ => True) ?_ fun _ _ _ => Exn.Post.pure trivial
  exact (Exn.Post.ensure fun _ => by unfold Other; decide).bind fun _ _ _ => hloop _ _

/-- With distinct keys the encoder does not report colliding ones. -/
theorem encodeUtxoDiff_post {D : DecodedUTXODiff} {maxEntries maxBytes : ℤ}
    (hnodup : (recordKeys C D.removals D.additions).Nodup) :
    Exn.Post (encodeUtxoDiff C D maxEntries maxBytes) (fun _ => True) Other := by
  have hother : ∀ {p : Prop} [Decidable p] {e : PyError}, Other e → Exn.Post (Exn.ensure p e) (fun _ => True) Other :=
    fun he => (Exn.Post.ensure fun _ => he).mono (fun _ _ => trivial) fun _ h => h
  have huint : ∀ w n, Exn.Post (encodeUint w n) (fun _ => True) Other := fun w n =>
    (hother (by unfold Other; decide)).bind fun _ _ _ => Exn.Post.pure trivial
  have hcell : ∀ cell, Exn.Post (encodeCell cell) (fun _ => True) Other := fun cell =>
    (hother (by unfold Other; decide)).bind fun _ _ _ =>
      (hother (by unfold Other; decide)).bind fun _ _ _ => Exn.Post.pure trivial
  have haddition : ∀ u, Exn.Post (encodeAddition u) (fun _ => True) Other := fun u =>
    (hother (by unfold Other; decide)).bind fun _ _ _ => (huint _ _).bind fun _ _ _ => Exn.Post.pure trivial
  have hrecords : Exn.Post (requireCanonicalRecords D.removals D.additions maxEntries) (fun _ => True) Other :=
    (hother (by unfold Other; decide)).bind fun _ _ _ => (hother (by unfold Other; decide)).bind fun _ _ _ =>
      (hother (by unfold Other; decide)).bind fun _ _ _ => hother (by unfold Other; decide)
  have hkeys : Exn.Post (changeKeys C D.removals D.additions) (fun keys => keys.Nodup) Other :=
    (Exn.Post.ensure fun h => absurd hnodup h).bind fun _ _ _ => Exn.Post.pure hnodup
  unfold encodeUtxoDiff
  refine hrecords.bind fun _ _ _ => hkeys.bind fun keys _ hdistinct => ?_
  refine Exn.Post.bind (P := fun _ => True) ?_ fun cellCount _ _ => ?_
  · exact (hother (by unfold Other; decide)).bind fun _ _ _ => Exn.Post.pure trivial
  refine Exn.Post.bind (P := fun _ => True) ?_ fun cells _ _ => ?_
  · refine (hother (by unfold Other; decide)).bind fun _ _ _ => ?_
    refine (Exn.Post.ensure fun h => absurd hdistinct h).bind fun _ _ _ => ?_
    exact Exn.Post.foldlM (fun _ _ => True) trivial fun _ key _ cells _ _ => applyIbltKey_post cells key 1
  refine (Exn.Post.mapM fun cell _ => hcell cell).bind fun _ _ _ => ?_
  refine (Exn.Post.mapM fun u _ => haddition u).bind fun _ _ _ => ?_
  refine (huint _ _).bind fun _ _ _ => (huint _ _).bind fun _ _ _ => (huint _ _).bind fun _ _ _ => ?_
  exact (hother (by unfold Other; decide)).bind fun _ _ _ => Exn.Post.pure trivial

/-! ## Reconciliation -/

section Reconcile

variable {d : Bytes} {maxEntries maxBytes : ℤ}

/-- The number of cells for the changes between two sets. -/
def cellsFor (L T : UTXOSet C) : ℕ := max ibltHashCount ((diffKeys L T).length * 2 + ibltHashCount)

/-- The changes as `build_utxo_diff` collects them. -/
def changesOf (L T : UTXOSet C) : DecodedUTXODiff :=
  ⟨L.plainRoot, T.plainRoot, (missing L T).map (recordOf C), missing T L, false⟩

theorem changeKeys_ok {removals : List RemoveRecord} {additions : List UTXO} {keys : List IBLTKey}
    (h : changeKeys C removals additions = .ok keys) :
    keys = recordKeys C removals additions ∧ (recordKeys C removals additions).Nodup := by
  obtain ⟨_, hnodup, h⟩ := Exn.bind_ok.1 h
  cases h
  exact ⟨rfl, Exn.ensure_ok.1 hnodup⟩

theorem canonicalIbltCellCount_ok {n cellCount : ℕ} (h : canonicalIbltCellCount n = .ok cellCount) :
    cellCount = max ibltHashCount (n * 2 + ibltHashCount) := by
  obtain ⟨_, -, h⟩ := Exn.bind_ok.1 h
  cases h
  rfl

/-- The cells of a diff hold its keys. -/
theorem buildIblt_ok {keys : List IBLTKey} {m : ℕ} {cells : List IBLTCell} (h : buildIblt C keys m = .ok cells) :
    cells.length = m ∧ (∀ k ∈ keys, Placed C ibltParams m k) ∧ HoldsKeys C ibltParams m cells keys := by
  obtain ⟨_, -, h⟩ := Exn.bind_ok.1 h
  obtain ⟨_, -, h⟩ := Exn.bind_ok.1 h
  exact applyIbltKeys_sketch h

/-- A diff with cells can be applied if its keys can be peeled, and only then. -/
theorem reconcile_compact (hlimits : requireDiffLimits maxEntries maxBytes = .ok ())
    (hsame : ∀ o u v, L.get o = some u → T.get o = some v → u = v)
    (h : encodeUtxoDiff C (changesOf L T) maxEntries maxBytes = .ok d) :
    (diffKeys L T).Nodup ∧ ((PeelsFrom C (cellsFor L T) (diffKeys L T) ∧ applyUtxoDiff L d maxEntries maxBytes = .ok T) ∨
      (¬PeelsFrom C (cellsFor L T) (diffKeys L T) ∧ ∀ r, applyUtxoDiff L d maxEntries maxBytes ≠ .ok r)) := by
  unfold encodeUtxoDiff at h
  obtain ⟨_, hrecords, h⟩ := Exn.bind_ok.1 h
  obtain ⟨keys, hkeys, h⟩ := Exn.bind_ok.1 h
  obtain ⟨cellCount, hcount, h⟩ := Exn.bind_ok.1 h
  obtain ⟨cells, hbuild, h⟩ := Exn.bind_ok.1 h
  obtain ⟨cellBytes, hcells, h⟩ := Exn.bind_ok.1 h
  obtain ⟨addBytes, hadds, hseal⟩ := Exn.bind_ok.1 h
  obtain ⟨rfl, hnodup⟩ := changeKeys_ok hkeys
  have hdiff : recordKeys C (changesOf L T).removals (changesOf L T).additions = diffKeys L T := rfl
  have hcellCount : cellCount = cellsFor L T := canonicalIbltCellCount_ok hcount
  obtain ⟨hlen, hplaced, hs⟩ := buildIblt_ok hbuild
  have hentries := (Exn.ensure_ok.1 (Exn.bind_ok.1 hrecords).choose_spec.1)
  -- the records and the cells are read back
  have hsmall := (sealDiff_ok hseal).1
  have hrecordCount : (recordKeys C (changesOf L T).removals (changesOf L T).additions).length =
      (changesOf L T).removals.length + (changesOf L T).additions.length := by
    simp [recordKeys]
  have hread := read_compact (D := changesOf L T) (by rw [hlen]; exact hsmall) hentries
    (by rw [hlen, ← hrecordCount]; exact hcount) hcells hadds rfl
  rw [hlen] at hread
  have hdecode := decode_sealed (by rw [← List.append_assoc]; exact hseal) hlimits hread
  rw [hrecords, Exn.ok_bind] at hdecode
  change _ = (do validateIbltSketch C cells (changesOf L T); return changesOf L T) at hdecode
  have hle : (diffKeys L T).length ≤ cellsFor L T := by
    unfold cellsFor
    omega
  rw [hcellCount] at hlen hplaced hs
  rw [hdiff] at hplaced hs hnodup
  have hvalidate : validateIbltSketch C cells (changesOf L T) = (do
      let peeled ← peelIblt C cells
      Exn.ensure (peeled = some (sortBy id (diffKeys L T)))
        (.valueError "UTXO diff IBLT sketch does not match records")) := by
    unfold validateIbltSketch
    rw [hkeys, Exn.ok_bind]
    rfl
  rw [hvalidate] at hdecode
  refine ⟨hnodup, ?_⟩
  rcases peelIblt_sketch hlen hplaced hs hnodup hle with ⟨hpeel, hpeeled⟩ | ⟨hpeel, hpeeled⟩
  · rw [hpeeled, Exn.ok_bind, Exn.ensure_of _ rfl, Exn.ok_bind] at hdecode
    obtain ⟨M, hremoved, hadded⟩ := applyChanges hsame
    exact .inl ⟨hpeel, apply_decoded hlimits hdecode rfl rfl L.ofList_entries hremoved hadded⟩
  · rw [hpeeled, Exn.ok_bind, Exn.ensure_not _ (by simp), Exn.error_bind] at hdecode
    exact .inr ⟨hpeel, apply_undecoded hdecode⟩

/-- A snapshot can always be applied. -/
theorem reconcile_snapshot (hlimits : requireDiffLimits maxEntries maxBytes = .ok ())
    (h : encodeFullSnapshotDiff L.plainRoot T maxEntries maxBytes = .ok d) :
    applyUtxoDiff L d maxEntries maxBytes = .ok T := by
  unfold encodeFullSnapshotDiff at h
  obtain ⟨_, hrecords, h⟩ := Exn.bind_ok.1 h
  obtain ⟨addBytes, hadds, h⟩ := Exn.bind_ok.1 h
  rw [merkleRootOf_eq, Exn.ok_bind] at h
  have hentries := Exn.ensure_ok.1 (Exn.bind_ok.1 hrecords).choose_spec.1
  have hread := read_snapshot (D := ⟨L.plainRoot, T.plainRoot, [], T.entries, true⟩) (sealDiff_ok h).1.2.1 hentries
    hadds rfl rfl
  have hdecode := decode_sealed h hlimits hread
  rw [hrecords, Exn.ok_bind] at hdecode
  exact apply_decoded hlimits hdecode rfl rfl rfl rfl (applyAdditions_of T.ofList_entries)

/-- **A diff can be applied exactly if** it is a snapshot, because the keys of two changes
collide, or no set of changes has two keys in every cell that it touches. -/
theorem utxoDiff_reconciles (h : buildUtxoDiff L T maxEntries maxBytes = .ok d) :
    (∃ r, applyUtxoDiff L d maxEntries maxBytes = .ok r ∧ r.entries = T.entries) ↔
      (¬(diffKeys L T).Nodup ∨ PeelsFrom C (cellsFor L T) (diffKeys L T)) := by
  unfold buildUtxoDiff at h
  obtain ⟨_, hlimits, h⟩ := Exn.bind_ok.1 h
  obtain ⟨removals, hremovals, h⟩ := Exn.bind_ok.1 h
  obtain ⟨rfl, hsame⟩ := addRemovals_ok hremovals
  rw [merkleRootOf_eq, Exn.ok_bind, merkleRootOf_eq, Exn.ok_bind] at h
  have hchanges : changesOf L T = ⟨L.plainRoot, T.plainRoot, (missing L T).map (recordOf C),
    T.entries.filter fun u => L.get u.outpoint = none, false⟩ := rfl
  cases hencode : encodeUtxoDiff C (changesOf L T) maxEntries maxBytes with
  | ok diff =>
    have hd : diff = d := by
      have hresult := hencode
      rw [hchanges] at hresult
      rw [hresult] at h
      cases h
      rfl
    subst hd
    obtain ⟨hnodup, ⟨hpeel, happly⟩ | ⟨hpeel, hfails⟩⟩ := reconcile_compact hlimits hsame hencode
    · exact ⟨fun _ => .inr hpeel, fun _ => ⟨T, happly, rfl⟩⟩
    · constructor
      · rintro ⟨r, hr, -⟩
        exact absurd hr (hfails r)
      · rintro (hdup | hpeel')
        · exact absurd hnodup hdup
        · exact absurd hpeel' hpeel
  | error e =>
    have hresult := hencode
    rw [hchanges] at hresult
    rw [hresult] at h
    dsimp only at h
    -- the snapshot is the answer to repeated keys only; every other error ends the build
    by_cases he : e = duplicateChangeKeys
    · rw [if_neg (not_not.2 he)] at h
      have hdup : ¬(diffKeys L T).Nodup := by
        intro hnodup
        have hpost : Exn.Post (encodeUtxoDiff C (changesOf L T) maxEntries maxBytes) (fun _ => True) Other :=
          encodeUtxoDiff_post hnodup
        rw [hencode] at hpost
        exact hpost he
      exact ⟨fun _ => .inl hdup, fun _ => ⟨T, reconcile_snapshot hlimits h, rfl⟩⟩
    · rw [if_pos he] at h
      cases h

end Reconcile

/-! ## Two changes in the same cells -/

/-- A hash of the last two bytes: the positions depend on the attempt alone. -/
def lastHash (b : Bytes) : Hash := FixedBytes.ofNat 32 (ofLe (b.drop (b.length - 2)))

def lastCrypto : Crypto := ⟨lastHash, fun _ _ _ => true⟩

/-- Two outputs with different outpoints, keys and payloads. -/
def coinAt (i : Fin 2) : UTXO :=
  ⟨⟨⟨genesisParentHash, 2 ^ 16 * i, by fin_cases i <;> decide⟩, 1, .pkh, genesisParentHash, 0, 0,
    [Fin.ofNat 256 i.val, 0]⟩, by fin_cases i <;> decide +kernel⟩

/-- A set of outputs that can be added one after another. -/
def utxosOf (l : List UTXO) : UTXOSet lastCrypto :=
  match UTXOSet.ofList l with
  | .ok s => s
  | .error _ => .empty

/-- One change is alone in its cells, so it can be applied. -/
theorem utxoDiff_reconciles_lone : ∃ d, buildUtxoDiff (utxosOf []) (utxosOf [coinAt 0]) 16384 67108864 = .ok d ∧
    ∃ r, applyUtxoDiff (utxosOf []) d 16384 67108864 = .ok r ∧ r.entries = (utxosOf [coinAt 0]).entries := by
  obtain ⟨d, hd⟩ : ∃ d, buildUtxoDiff (utxosOf []) (utxosOf [coinAt 0]) 16384 67108864 = .ok d :=
    Exn.returns_of_isOk (by decide +kernel)
  refine ⟨d, hd, (utxoDiff_reconciles hd).2 (.inr ?_)⟩
  have hkeys : diffKeys (utxosOf []) (utxosOf [coinAt 0]) = [changeKey lastCrypto addDomain (coinAt 0).toBytes] := by
    decide +kernel
  have hcell : 0 ∈ positionsOf lastCrypto ibltParams (cellsFor (utxosOf []) (utxosOf [coinAt 0]))
      (changeKey lastCrypto addDomain (coinAt 0).toBytes) := by decide +kernel
  rw [hkeys]
  rintro ⟨S, ⟨k, hk⟩, hsub, hstop⟩
  have hone := List.mem_singleton.1 (hsub k hk)
  obtain ⟨k', hk', hne, -⟩ := hstop k hk 0 (hone ▸ hcell)
  exact hne ((List.mem_singleton.1 (hsub k' hk')).trans hone.symm)

/-- Two changes in the same three cells: the diff is built, and its receiver rejects it. -/
theorem utxoDiff_rejected : ∃ d,
    buildUtxoDiff (utxosOf []) (utxosOf [coinAt 0, coinAt 1]) 16384 67108864 = .ok d ∧
      ∀ r, applyUtxoDiff (utxosOf []) d 16384 67108864 ≠ .ok r := by
  have hrun : (buildUtxoDiff (utxosOf []) (utxosOf [coinAt 0, coinAt 1]) 16384 67108864).toOption.map
      (fun d => (applyUtxoDiff (utxosOf []) d 16384 67108864).isOk) = some false := by decide +kernel
  obtain ⟨d, hd, hfails⟩ := Option.map_eq_some_iff.1 hrun
  refine ⟨d, ?_, fun r hr => ?_⟩
  · cases h : buildUtxoDiff (utxosOf []) (utxosOf [coinAt 0, coinAt 1]) 16384 67108864 with
    | error e =>
      rw [h] at hd
      cases hd
    | ok d' =>
      rw [h] at hd
      cases hd
      rfl
  · rw [hr] at hfails
    cases hfails

end Sync

end TensorPow
