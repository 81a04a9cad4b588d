import TensorPow.Exn.Basic
import TensorPow.Spec.Iblt

/-!
# The cells of a set of keys

* `ibltPositions_ok`: the positions of a key are distinct, and there are some.
* `applyIbltKeys_sketch`: the cells that are built hold exactly the keys.
* `reads_cell`: a cell that can be encoded is read back.
-/

namespace TensorPow

open Wire

variable {C : Crypto} {P : IBLTParams}

/-- Keys and checksums are added by exclusive or. -/
theorem xorKeys_selfInverse : Iblt.SelfInverse xorKeys noKeys where
  comm a b := Prod.ext (FixedBytes.xor_comm a.1 b.1) (Nat.xor_comm a.2 b.2)
  assoc a b c := Prod.ext (FixedBytes.xor_assoc a.1 b.1 c.1) (Nat.xor_assoc a.2 b.2 c.2)
  zero_op a := Prod.ext (FixedBytes.zero_xor a.1) (Nat.zero_xor a.2)
  self a := Prod.ext (FixedBytes.xor_self a.1) (Nat.xor_self a.2)

/-! ## Positions -/

/-- What the loop of `_iblt_positions` keeps. -/
structure PositionsOk (cellCount : ℕ) (positions : List ℕ) : Prop where
  nodup : positions.Nodup
  lt : ∀ i ∈ positions, i < cellCount

theorem PositionsOk.next {cellCount : ℕ} {positions : List ℕ} (h : PositionsOk cellCount positions) {position : ℕ}
    (hlt : position < cellCount) :
    PositionsOk cellCount (if position ∈ positions then positions else positions ++ [position]) := by
  split
  · exact h
  · rename_i hnew
    have hnodup : (positions ++ [position]).Nodup := by
      rw [← List.concat_eq_append]
      exact h.nodup.concat hnew
    refine ⟨hnodup, fun i hi => ?_⟩
    rcases List.mem_append.1 hi with hi | hi
    · exact h.lt i hi
    · rw [List.mem_singleton.1 hi]
      exact hlt

theorem ibltPositionsLoop_ok {key : IBLTKey} {cellCount : ℕ} (hpos : 0 < cellCount) {left : ℕ}
    {positions r : List ℕ} (hok : PositionsOk cellCount positions)
    (h : ibltPositionsLoop C P key cellCount left positions = .ok r) :
    PositionsOk cellCount r ∧ ibltHashCount ≤ r.length := by
  induction left generalizing positions with
  | zero => cases h
  | succ left ih =>
    unfold ibltPositionsLoop at h
    split at h
    · rename_i henough
      cases h
      exact ⟨hok, henough⟩
    · exact ih (hok.next (Nat.mod_lt _ hpos)) h

/-- The positions of a key are distinct cells, and there are some. -/
theorem ibltPositions_ok {key : IBLTKey} {cellCount : ℕ} {r : List ℕ} (h : ibltPositions C P key cellCount = .ok r) :
    PositionsOk cellCount r ∧ r ≠ [] := by
  unfold ibltPositions requireIbltCellCount at h
  obtain ⟨_, hcount, h⟩ := Exn.bind_ok.1 h
  have hcount := (Exn.ensure_ok.1 hcount).1
  have hpos : 0 < cellCount := by
    unfold ibltHashCount at hcount
    omega
  obtain ⟨hok, hlen⟩ := ibltPositionsLoop_ok hpos ⟨List.nodup_nil, fun i hi => (by cases hi)⟩ h
  refine ⟨hok, ?_⟩
  rintro rfl
  exact absurd hlen (by decide)

variable (C P)

/-- The positions of a key, none if they cannot be derived. -/
def positionsOf (cellCount : ℕ) (key : IBLTKey) : List ℕ :=
  match ibltPositions C P key cellCount with
  | .ok r => r
  | .error _ => []

/-- The cells are those of the keys `l`. -/
abbrev HoldsKeys (cellCount : ℕ) (cells : List IBLTCell) (l : List IBLTKey) : Prop :=
  Iblt.Sketch xorKeys noKeys (ibltValue C P) (positionsOf C P cellCount) cells l

/-- The keys whose positions can be derived. -/
def Placed (cellCount : ℕ) (key : IBLTKey) : Prop :=
  ibltPositions C P key cellCount = .ok (positionsOf C P cellCount key)

variable {C P}

theorem placed_of {key : IBLTKey} {cellCount : ℕ} {r : List ℕ} (h : ibltPositions C P key cellCount = .ok r) :
    Placed C P cellCount key := by
  unfold Placed positionsOf
  rw [h]

theorem Placed.ok {key : IBLTKey} {cellCount : ℕ} (h : Placed C P cellCount key) :
    PositionsOk cellCount (positionsOf C P cellCount key) ∧ positionsOf C P cellCount key ≠ [] :=
  ibltPositions_ok h

/-! ## Building -/

theorem applyIbltKey_ok {cells cells' : List IBLTCell} {key : IBLTKey} {delta : ℤ}
    (h : applyIbltKey C P cells key delta = .ok cells') : Placed C P cells.length key ∧
      cells' = Iblt.update xorKeys delta (ibltValue C P key) cells (positionsOf C P cells.length key) := by
  unfold applyIbltKey at h
  obtain ⟨_, -, h⟩ := Exn.bind_ok.1 h
  obtain ⟨r, hr, h⟩ := Exn.bind_ok.1 h
  cases h
  have hplaced := placed_of hr
  refine ⟨hplaced, ?_⟩
  have hsame : r = positionsOf C P cells.length key := Except.ok.inj (hr.symm.trans hplaced)
  rw [← hsame]

theorem applyIbltKey_of {cells : List IBLTCell} {key : IBLTKey} {delta : ℤ} (hdelta : delta = -1 ∨ delta = 1)
    (h : Placed C P cells.length key) : applyIbltKey C P cells key delta =
      .ok (Iblt.update xorKeys delta (ibltValue C P key) cells (positionsOf C P cells.length key)) := by
  unfold applyIbltKey
  rw [Exn.ensure_of _ hdelta, Exn.ok_bind, h]
  rfl

/-- **The cells that are built hold exactly the keys**, each of which has its positions. -/
theorem applyIbltKeys_sketch {cellCount : ℕ} {keys : List IBLTKey} {cells : List IBLTCell}
    (h : applyIbltKeys C P (emptyIblt cellCount) keys = .ok cells) :
    cells.length = cellCount ∧ (∀ k ∈ keys, Placed C P cellCount k) ∧ HoldsKeys C P cellCount cells keys := by
  refine Exn.foldlM_inv (fun done cells => cells.length = cellCount ∧ (∀ k ∈ done, Placed C P cellCount k) ∧
    HoldsKeys C P cellCount cells done) ?_ ?_ h
  · rintro done key todo t t' - ⟨hlen, hplaced, hs⟩ hstep
    obtain ⟨hkey, rfl⟩ := applyIbltKey_ok hstep
    rw [hlen] at hkey ⊢
    refine ⟨by rw [Iblt.length_update, hlen], fun k hk => ?_, ?_⟩
    · rcases List.mem_append.1 hk with hk | hk
      · exact hplaced k hk
      · rw [List.mem_singleton.1 hk]
        exact hkey
    · have hadd := hs.add xorKeys_selfInverse hkey.ok.1.nodup
      exact hadd.perm xorKeys_selfInverse (List.perm_append_singleton key done).symm
  · exact ⟨List.length_replicate, fun k hk => (by cases hk), Iblt.sketch_nil cellCount⟩

/-! ## Cells on the wire -/

theorem reads_cell {badCount badChecksum : PyError} {cell : IBLTCell} {b : Bytes}
    (h : encodeIbltCell badCount badChecksum cell = .ok b) (truncated : PyError) :
    Reads (readIbltCell truncated) cell b := by
  unfold encodeIbltCell at h
  obtain ⟨_, hcount, h⟩ := Exn.bind_ok.1 h
  obtain ⟨_, hchecksum, h⟩ := Exn.bind_ok.1 h
  cases h
  obtain ⟨hnonneg, hle⟩ := Exn.ensure_ok.1 hcount
  have hsum := Exn.ensure_ok.1 hchecksum
  have hcell : (⟨(cell.count.toNat : ℤ), cell.sum.1, cell.sum.2⟩ : IBLTCell) = cell := by
    rw [Int.toNat_of_nonneg hnonneg]
  have hcount256 : cell.count.toNat < 256 ^ 2 := by
    unfold u16Max at hle
    omega
  have hsum256 : cell.sum.2 < 256 ^ 4 := by
    unfold u32Max at hsum
    omega
  unfold readIbltCell
  rw [List.append_assoc]
  refine (Reads.uint _ hcount256).bind ((Reads.fixed _ _).bind ?_)
  rw [← List.append_nil (le 4 _)]
  refine (Reads.uint _ hsum256).bind ?_
  rw [← hcell]
  exact Reads.pure _

end TensorPow
