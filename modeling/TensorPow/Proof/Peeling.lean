import TensorPow.Iblt.Run
import TensorPow.Proof.Sync
import TensorPow.Spec.Graphene

/-!
# Peeling ends and is sound

Both modules hand their cells to one peeling loop. Whatever the cells are, an adversary's
included, the loop ends within as many rounds as there are cells, and the keys it returns
account for every cell.

* `restoreIblt`, `updates`, `restore_peeled`: the keys that were returned, with the opposite
  signs, build the cells again.
* `peelIbltCells_sound`: both modules, and the cells that the reconciliation builds.
-/

namespace TensorPow

open Iblt

/-- `peel_iblt_cells`. -/
abbrev peelIbltCells (p : Peeler PyError IBLTKey IBLTCell) (cells : List IBLTCell) :
    Except PyError (Option (List (IBLTKey × ℤ))) := peelLoop p cells.length cells []

/-- The opposite signs of some keys applied to empty cells. -/
def restoreIblt (C : Crypto) (P : IBLTParams) (cellCount : ℕ) (peeled : List (IBLTKey × ℤ)) :
    Except PyError (List IBLTCell) :=
  peeled.foldlM (fun cells q => applyIbltKey C P cells q.1 (-q.2)) (emptyIblt cellCount)

variable {C : Crypto} {P : IBLTParams}

/-- Both modules take out keys by the same function, and know the same empty cell. -/
theorem updates {p : Peeler PyError IBLTKey IBLTCell} (happly : p.applyKey = applyIbltKey C P)
    (hempty : p.isEmpty = isEmptyIbltCell) (m : ℕ) :
    Updates xorKeys noKeys (ibltValue C P) (positionsOf C P m) p m where
  isEmpty c hc := by
    rw [hempty] at hc
    obtain ⟨hcount, hsum⟩ := of_decide_eq_true hc
    cases c
    exact congrArg₂ Cell.mk hcount hsum
  applyKey cells k δ next hlen hnext := by
    rw [happly] at hnext
    obtain ⟨hplaced, heq⟩ := applyIbltKey_ok hnext
    rw [hlen] at hplaced heq
    exact ⟨hplaced.ok.1.nodup, heq⟩

/-- Keys that were applied can be applied again, with the other sign too. -/
theorem applyIbltKey_neg {cells cells' next : List IBLTCell} {key : IBLTKey} {delta : ℤ}
    (h : applyIbltKey C P cells key delta = .ok next) (hlen : cells'.length = cells.length) :
    applyIbltKey C P cells' key (-delta) =
      .ok (update xorKeys (-delta) (ibltValue C P key) cells' (positionsOf C P cells.length key)) := by
  have hdelta : delta = -1 ∨ delta = 1 := by
    unfold applyIbltKey at h
    obtain ⟨_, hdelta, -⟩ := Exn.bind_ok.1 h
    exact Exn.ensure_ok.1 hdelta
  obtain ⟨hplaced, -⟩ := applyIbltKey_ok h
  rw [← hlen] at hplaced ⊢
  exact applyIbltKey_of (by omega) hplaced

theorem restoreIblt_ok {p : Peeler PyError IBLTKey IBLTCell} (happly : p.applyKey = applyIbltKey C P) {m : ℕ}
    {rest : List (IBLTKey × ℤ)}
    (hrest : ∀ q ∈ rest, ∃ cells next, cells.length = m ∧ p.applyKey cells q.1 q.2 = .ok next) {cells : List IBLTCell}
    (hlen : cells.length = m) :
    rest.foldlM (fun cells q => applyIbltKey C P cells q.1 (-q.2)) cells =
      .ok (restore xorKeys (ibltValue C P) (positionsOf C P m) cells rest) := by
  induction rest generalizing cells with
  | nil => rfl
  | cons q rest ih =>
    obtain ⟨cells', next, hlen', hnext⟩ := hrest q List.mem_cons_self
    rw [happly] at hnext
    have hfirst := applyIbltKey_neg hnext (hlen.trans hlen'.symm)
    rw [hlen'] at hfirst
    rw [List.foldlM_cons, hfirst, Exn.ok_bind]
    refine ih (fun q hq => hrest q (List.mem_cons_of_mem _ hq)) ?_
    rw [length_update, hlen]

/-- **The keys account for the cells**, and there are not more of them than cells. -/
theorem restore_peeled {p : Peeler PyError IBLTKey IBLTCell} (happly : p.applyKey = applyIbltKey C P)
    (hempty : p.isEmpty = isEmptyIbltCell) {cells : List IBLTCell} {peeled : List (IBLTKey × ℤ)}
    (h : peelIbltCells p cells = .ok (some peeled)) :
    peeled.length ≤ cells.length ∧ restoreIblt C P cells.length peeled = .ok cells := by
  obtain ⟨rest, hresult, hcount, happlied, hrestore⟩ :=
    peelLoop_undo xorKeys_selfInverse (updates happly hempty cells.length) rfl h
  rw [List.nil_append] at hresult
  subst hresult
  refine ⟨hcount, ?_⟩
  have hempties : (emptyIblt cells.length).length = cells.length := List.length_replicate
  unfold restoreIblt
  rw [restoreIblt_ok happly happlied hempties]
  exact congrArg Except.ok hrestore

/-- **Peeling**, for the cells of both modules and whatever the hashes are. It ends within as
many rounds as there are cells. The keys it returns, with the opposite signs, build the cells
again. And the cells that the reconciliation builds for distinct keys give back these keys,
each once, or none. -/
theorem peelIbltCells_sound (C : Crypto) :
    (∀ p ∈ [Sync.peeler C, Graphene.peeler C], ∀ cells : List IBLTCell, ∃ n ≤ cells.length,
      Finishes p cells.length ⟨0, cells, []⟩ n (peelIbltCells p cells)) ∧
    (∀ cells peeled, peelIbltCells (Sync.peeler C) cells = .ok (some peeled) →
      peeled.length ≤ cells.length ∧ restoreIblt C Sync.ibltParams cells.length peeled = .ok cells) ∧
    (∀ cells peeled, peelIbltCells (Graphene.peeler C) cells = .ok (some peeled) →
      peeled.length ≤ cells.length ∧ restoreIblt C Graphene.ibltParams cells.length peeled = .ok cells) ∧
    ∀ keys cellCount cells, keys.Nodup → Sync.canonicalIbltCellCount keys.length = .ok cellCount →
      Sync.buildIblt C keys cellCount = .ok cells →
      (peelIbltCells (Sync.peeler C) cells = .ok none ∧ Sync.peelIblt C cells = .ok none) ∨
        ∃ peeled : List IBLTKey, peeled.Perm keys ∧
          peelIbltCells (Sync.peeler C) cells = .ok (some (peeled.map fun key => (key, -1))) ∧
          Sync.peelIblt C cells = .ok (some (Sorted.sortBy id keys)) := by
  refine ⟨fun p _ cells => peelLoop_finishes p (Nat.zero_add _) cells [], fun cells peeled h => restore_peeled rfl rfl h,
    fun cells peeled h => restore_peeled rfl rfl h, fun keys cellCount cells hnodup hcount hbuild => ?_⟩
  obtain ⟨hlen, hplaced, hs⟩ := Sync.buildIblt_ok hbuild
  have hle : keys.length ≤ cellCount := by
    rw [Sync.canonicalIbltCellCount_ok hcount]
    omega
  have hsorted := Sync.peelIblt_sketch hlen hplaced hs hnodup hle
  have hout : Iblt.Outcome (positionsOf C Sync.ibltParams cellCount) keys []
      (peelLoop (Sync.peeler C) cells.length cells []) :=
    peelLoop_sketch xorKeys_selfInverse (Sync.peels hplaced) hlen hs (fun k hk => hk) hnodup (by omega)
  rcases hout with ⟨hpeel, l', hperm, hr⟩ | ⟨hpeel, hr⟩
  · rcases hsorted with ⟨-, hkeys⟩ | ⟨hnot, -⟩
    · exact .inr ⟨l', hperm, hr, hkeys⟩
    · exact absurd hpeel hnot
  · rcases hsorted with ⟨hyes, -⟩ | ⟨-, hnone⟩
    · exact absurd hyes hpeel
    · exact .inl ⟨hr, hnone⟩

/-- Two keys, one of whose cells is the same. -/
def pairKeys : List IBLTKey := [Wire.FixedBytes.ofNat 8 77, Wire.FixedBytes.ofNat 8 78]

/-- The first round takes one of the keys out of the cell they share, the second takes the other. -/
theorem peelIbltCells_sound_pair : ∃ cells, Sync.buildIblt sampleCrypto pairKeys 7 = .ok cells ∧
    (∃ cell ∈ cells, cell.count = 2) ∧
    (∃ n ≤ 7, Finishes (Sync.peeler sampleCrypto) cells.length ⟨0, cells, []⟩ n
      (peelIbltCells (Sync.peeler sampleCrypto) cells)) ∧
    ∃ peeled : List IBLTKey, peeled.Perm pairKeys ∧
      peelIbltCells (Sync.peeler sampleCrypto) cells = .ok (some (peeled.map fun key => (key, -1))) ∧
      restoreIblt sampleCrypto Sync.ibltParams cells.length (peeled.map fun key => (key, -1)) = .ok cells := by
  obtain ⟨hfinishes, hrestore, -, hhonest⟩ := peelIbltCells_sound sampleCrypto
  have hcells : (do
      let cells ← Sync.buildIblt sampleCrypto pairKeys 7
      let peeled ← Sync.peelIblt sampleCrypto cells
      return (cells.length, decide (∃ cell ∈ cells, cell.count = 2), peeled.isSome)) = .ok (7, true, true) := by
    decide +kernel
  obtain ⟨cells, hbuild, hcells⟩ := Exn.bind_ok.1 hcells
  obtain ⟨found, hfound, hcells⟩ := Exn.bind_ok.1 hcells
  rw [Exn.pure_ok, Prod.mk.injEq, Prod.mk.injEq] at hcells
  obtain ⟨hlength, hshared, hsome⟩ := hcells
  obtain ⟨n, hn, hround⟩ := hfinishes _ List.mem_cons_self cells
  refine ⟨cells, hbuild, of_decide_eq_true hshared, ⟨n, hlength ▸ hn, hround⟩, ?_⟩
  rcases hhonest pairKeys 7 cells (by decide) rfl hbuild with ⟨-, hnone⟩ | ⟨peeled, hperm, hpeel, -⟩
  · obtain rfl := Except.ok.inj (hfound.symm.trans hnone)
    cases hsome
  · exact ⟨peeled, hperm, hpeel, (hrestore cells _ hpeel).2⟩

end TensorPow
