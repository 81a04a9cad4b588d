import TensorPow.Coder.Product
import TensorPow.Proof.Das
import TensorPow.Spec.DasCodec

/-!
# The grid of a payload

`encode_payload` extends the data rows, then all columns, and checks that every row and every
column is a codeword. The rows below the data are written by columns only.

* `SystematicLinear`: what the Reed-Solomon codec is relied on for.
* `extendCells`, `entry`: a line of cells extended byte by byte, and the entries of the grid.
* `rsExtendMatrix_eq`: the rows of the grid in closed form.
* `grid_valid`: every row and every column passes the check.
* `encodePayload_recoverable`: payloads are encoded, and can be read off the data cells.
-/

namespace TensorPow.Das

open Wire Exn Coder

/-- A systematic linear code for every number of data symbols, whose check accepts exactly the
codewords. Bytes are read as elements of `F`. -/
structure SystematicLinear (F : Type) [CommSemiring F] (sym : Byte ≃ F) (enc : ℕ → Bytes → Bytes)
    (rs : ℕ → Bytes → Bool) : Prop where
  encoder : ∀ k, k ≠ 0 → k ≤ maxDataSide → LinearEncoder F sym 0 k (k * rsExtensionFactor) (enc k)
  systematic : ∀ k, k ≠ 0 → k ≤ maxDataSide → ∀ s : Bytes, s.length = k → (enc k s).take k = s
  check : ∀ k, k ≠ 0 → k ≤ maxDataSide → ∀ w : Bytes, w.length = k * rsExtensionFactor →
    (rs k w = true ↔ ∃ s : Bytes, s.length = k ∧ w = enc k s)

/-! ## Cells byte by byte -/

theorem byte_cellAt (cells : List Cell) (position byteIndex : ℕ) :
    (cellAt cells position).bytes.getD byteIndex 0 = (symbolsAt cells byteIndex).getD position 0 := by
  unfold cellAt symbolsAt
  by_cases h : position < cells.length
  · have hmap : position < (cells.map fun c => c.bytes.getD byteIndex 0).length := by rwa [List.length_map]
    rw [List.getD_eq_getElem _ _ h, List.getD_eq_getElem _ _ hmap, List.getElem_map]
  · have hmap : (cells.map fun c => c.bytes.getD byteIndex 0).length ≤ position := by
      rw [List.length_map]
      omega
    have hzero : cells.getD position (FixedBytes.zero 256) = FixedBytes.zero 256 := List.getD_eq_default _ _ (by omega)
    rw [hzero, List.getD_eq_default _ _ hmap]
    change (List.replicate 256 (0 : Byte)).getD byteIndex 0 = 0
    rw [List.getD_eq_getElem?_getD, List.getElem?_replicate]
    split
    · rfl
    · rfl

/-- Cells are equal if their bytes are. -/
theorem cell_ext {c c' : Cell} (h : ∀ i < cellBytes, c.bytes.getD i 0 = c'.bytes.getD i 0) : c = c' := by
  apply FixedBytes.bytes_inj.1
  rw [← map_range_getD_self c.bytes 0, ← map_range_getD_self c'.bytes 0, c.len, c'.len]
  apply List.map_congr_left
  intro i hi
  exact h i (List.mem_range.1 hi)

section Grid

variable {F : Type} [CommSemiring F] {sym : Byte ≃ F} {enc : ℕ → Bytes → Bytes} {rs : ℕ → Bytes → Bool} {k : ℕ}

/-- A line of cells, extended. -/
def extendCells (enc : ℕ → Bytes → Bytes) (k : ℕ) (cells : List Cell) : List Cell :=
  (List.range (k * rsExtensionFactor)).map
    (cellOfCodewords ((List.range cellBytes).map fun byteIndex => enc k (symbolsAt cells byteIndex)))

@[simp] theorem length_extendCells (cells : List Cell) : (extendCells enc k cells).length = k * rsExtensionFactor := by
  simp [extendCells]

@[simp] theorem length_symbolsAt (cells : List Cell) (byteIndex : ℕ) :
    (symbolsAt cells byteIndex).length = cells.length := by
  simp [symbolsAt]

theorem cellOfCodewords_byte {codewords : List Bytes} {position byteIndex : ℕ} (h : byteIndex < cellBytes) :
    (cellOfCodewords codewords position).bytes.getD byteIndex 0 = (codewords.getD byteIndex []).getD position 0 :=
  getD_map_range (fun byteIndex => (codewords.getD byteIndex []).getD position 0) 0 h

variable (hcode : SystematicLinear F sym enc rs) (hpos : k ≠ 0) (hmax : k ≤ maxDataSide)

include hcode hpos hmax

/-- The symbols of an extended line are codewords. -/
theorem symbolsAt_extendCells {cells : List Cell} (hlength : cells.length = k) {byteIndex : ℕ} (h : byteIndex < cellBytes) :
    symbolsAt (extendCells enc k cells) byteIndex = enc k (symbolsAt cells byteIndex) := by
  have hsymbols : (symbolsAt cells byteIndex).length = k := by rw [length_symbolsAt, hlength]
  have hword := (hcode.encoder k hpos hmax).length_enc _ hsymbols
  conv_rhs => rw [← map_range_getD_self (enc k (symbolsAt cells byteIndex)) 0, hword]
  unfold symbolsAt extendCells
  rw [List.map_map]
  apply List.map_congr_left
  intro position _
  rw [Function.comp_apply, cellOfCodewords_byte h, getD_map_range _ _ h]
  rfl

theorem rsExtendRow_eq {cells : List Cell} (hlength : cells.length = k) :
    rsExtendRow enc cells k = .ok (extendCells enc k cells) := by
  have hsmall : k ≤ u32Max := by
    unfold maxDataSide rsExtensionFactor at hmax
    unfold u32Max
    omega
  have hwords : (List.range cellBytes).mapM (fun byteIndex => rsEncodeSymbols enc (symbolsAt cells byteIndex) k) =
      .ok ((List.range cellBytes).map fun byteIndex => enc k (symbolsAt cells byteIndex)) := by
    apply mapM_eq_map
    intro byteIndex _
    have hsymbols : (symbolsAt cells byteIndex).length = k := by rw [length_symbolsAt, hlength]
    have hword := (hcode.encoder k hpos hmax).length_enc _ hsymbols
    unfold rsEncodeSymbols requirePositiveU32 requireU32
    rw [ensure_of _ hsmall, ok_bind, ensure_of _ hpos, ok_bind, ensure_of _ hsymbols, ok_bind, ensure_of _ hmax, ok_bind]
    dsimp only
    rw [ensure_of _ hword]
    rfl
  unfold rsExtendRow
  rw [ensure_of _ hlength, ok_bind, hwords]
  rfl

/-- The data cells of an extended line are the cells it was extended from. -/
theorem cellAt_extendCells {cells : List Cell} (hlength : cells.length = k) {position : ℕ} (h : position < k) :
    cellAt (extendCells enc k cells) position = cellAt cells position := by
  apply cell_ext
  intro byteIndex hbyte
  have hsymbols : (symbolsAt cells byteIndex).length = k := by rw [length_symbolsAt, hlength]
  have hsystematic := hcode.systematic k hpos hmax _ hsymbols
  rw [byte_cellAt, byte_cellAt, symbolsAt_extendCells hcode hpos hmax hlength hbyte]
  conv_rhs => rw [← hsystematic]
  rw [List.getD_eq_getElem?_getD, List.getD_eq_getElem?_getD, List.getElem?_take_of_lt h]

omit hcode hpos hmax

/-- The column of the extended rows, before it is extended. -/
def columnCells (enc : ℕ → Bytes → Bytes) (k : ℕ) (rows : List (List Cell)) (column : ℕ) : List Cell :=
  rows.map fun row => cellAt (extendCells enc k row) column

/-- The entries of the grid. -/
def entry (enc : ℕ → Bytes → Bytes) (k : ℕ) (rows : List (List Cell)) (row column : ℕ) : Cell :=
  cellAt (extendCells enc k (columnCells enc k rows column)) row

variable {rows : List (List Cell)} (hrows : rows.length = k) (hsquare : ∀ row ∈ rows, row.length = k)

include hcode hpos hmax hrows hsquare

omit hsquare in
theorem entry_data {row column : ℕ} (hrow : row < k) :
    entry enc k rows row column = cellAt (extendCells enc k (rows.getD row [])) column := by
  have hlength : (columnCells enc k rows column).length = k := by
    unfold columnCells
    rw [List.length_map, hrows]
  have hin : row < rows.length := by omega
  have hin' : row < (columnCells enc k rows column).length := by omega
  have hget : cellAt (columnCells enc k rows column) row = (columnCells enc k rows column)[row] :=
    List.getD_eq_getElem _ _ hin'
  unfold entry
  rw [cellAt_extendCells hcode hpos hmax hlength hrow, hget, List.getD_eq_getElem _ _ hin]
  simp [columnCells]

/-- **The rows of the grid.** What the code writes as extended data rows and as parity rows is
one grid of entries. -/
theorem rsExtendMatrix_eq :
    rsExtendMatrix enc rows = .ok ((List.range (k * rsExtensionFactor)).map fun row =>
      (List.range (k * rsExtensionFactor)).map (entry enc k rows row)) := by
  have hsmall : k ≤ u32Max := by
    unfold maxDataSide rsExtensionFactor at hmax
    unfold u32Max
    omega
  have hextended : rows.mapM (fun row => rsExtendRow enc row k) = .ok (rows.map (extendCells enc k)) := by
    apply mapM_eq_map
    intro row hrow
    exact rsExtendRow_eq hcode hpos hmax (hsquare row hrow)
  have hcolumns : (List.range (k * rsExtensionFactor)).mapM
      (fun column => rsExtendRow enc ((rows.map (extendCells enc k)).map fun row => cellAt row column) k) =
      .ok ((List.range (k * rsExtensionFactor)).map fun column => extendCells enc k (columnCells enc k rows column)) := by
    apply mapM_eq_map
    intro column _
    have hcells : ((rows.map (extendCells enc k)).map fun row => cellAt row column) = columnCells enc k rows column := by
      unfold columnCells
      rw [List.map_map]
      rfl
    rw [hcells]
    refine rsExtendRow_eq hcode hpos hmax ?_
    unfold columnCells
    rw [List.length_map, hrows]
  have hchecks : (rows.forM fun row => Exn.ensure (row.length = k) (PyError.valueError "data matrix must be square")) =
      .ok () := by
    rw [forM_ok]
    intro row hrow
    exact ensure_of _ (hsquare row hrow)
  -- the upper half: the rows as extended
  have htop : rows.map (extendCells enc k) =
      (List.range k).map fun row => (List.range (k * rsExtensionFactor)).map (entry enc k rows row) := by
    apply List.ext_getElem
    · simp [hrows]
    · intro row hin hin'
      have hrow : row < k := by simpa using hin'
      have hget : row < rows.length := by omega
      rw [List.getElem_map, List.getElem_map, List.getElem_range, ← List.getD_eq_getElem rows [] hget]
      have hentries : entry enc k rows row = fun column => cellAt (extendCells enc k (rows.getD row [])) column := by
        funext column
        exact entry_data hcode hpos hmax hrows hrow
      rw [hentries]
      have hself := map_range_getD_self (extendCells enc k (rows.getD row [])) (FixedBytes.zero 256)
      rw [length_extendCells] at hself
      exact hself.symm
  -- the lower half: row by row out of the extended columns
  have hparity : ((List.range k).map fun rowOffset =>
      ((List.range (k * rsExtensionFactor)).map fun column => extendCells enc k (columnCells enc k rows column)).map
        fun column => cellAt column (k + rowOffset)) =
      (List.range k).map fun rowOffset => (List.range (k * rsExtensionFactor)).map (entry enc k rows (k + rowOffset)) := by
    apply List.map_congr_left
    intro rowOffset _
    rw [List.map_map]
    rfl
  have hsplit : ∀ f : ℕ → List Cell, (List.range (k * rsExtensionFactor)).map f =
      (List.range k).map f ++ (List.range k).map fun i => f (k + i) := by
    intro f
    have hdouble : k * rsExtensionFactor = k + k := Nat.mul_two k
    rw [hdouble, List.range_add, List.map_append, List.map_map]
    rfl
  unfold rsExtendMatrix requirePositiveU32 requireU32
  dsimp only
  rw [hrows, ensure_of _ hsmall, ok_bind, ensure_of _ hpos, ok_bind, hchecks, ok_bind, hextended, ok_bind, hcolumns, ok_bind,
    hparity, htop]
  exact congrArg Except.ok (hsplit _).symm

/-- **Every column of the grid is a codeword**, and so is every row. -/
theorem entries_codewords {byteIndex : ℕ} (hbyte : byteIndex < cellBytes) :
    (∀ column, ∃ s : Bytes, s.length = k ∧
      ((List.range (k * rsExtensionFactor)).map fun row => (entry enc k rows row column).bytes.getD byteIndex 0) = enc k s) ∧
    ∀ row < k * rsExtensionFactor, ∃ s : Bytes, s.length = k ∧
      ((List.range (k * rsExtensionFactor)).map fun column => (entry enc k rows row column).bytes.getD byteIndex 0) =
        enc k s := by
  have hencoder := hcode.encoder k hpos hmax
  have hcolumn : ∀ column, (columnCells enc k rows column).length = k := by
    intro column
    unfold columnCells
    rw [List.length_map, hrows]
  have hbytes : ∀ row column, (entry enc k rows row column).bytes.getD byteIndex 0 =
      (enc k (symbolsAt (columnCells enc k rows column) byteIndex)).getD row 0 := by
    intro row column
    unfold entry
    rw [byte_cellAt, symbolsAt_extendCells hcode hpos hmax (hcolumn column) hbyte]
  simp only [hbytes]
  constructor
  · intro column
    have hsymbols : (symbolsAt (columnCells enc k rows column) byteIndex).length = k := by
      rw [length_symbolsAt, hcolumn]
    refine ⟨_, hsymbols, ?_⟩
    have hself := map_range_getD_self (enc k (symbolsAt (columnCells enc k rows column) byteIndex)) 0
    rwa [hencoder.length_enc _ hsymbols] at hself
  · intro row hrow
    have hdata : ∀ a < k, (symbolsAt (rows.getD a []) byteIndex).length = k := by
      intro a ha
      have hin : a < rows.length := by omega
      rw [length_symbolsAt, List.getD_eq_getElem _ _ hin]
      exact hsquare _ (List.getElem_mem hin)
    obtain ⟨s, hs, hword⟩ := hencoder.row_codeword hdata hrow
    refine ⟨s, hs, ?_⟩
    rw [← hword]
    apply List.map_congr_left
    intro column _
    congr 2
    -- the symbols of the column are those of the extended rows
    apply List.ext_getElem
    · simp [hcolumn]
    · intro a ha ha'
      have hak : a < k := by simpa using ha'
      have hin : a < rows.length := by omega
      have hrowLength : (rows.getD a []).length = k := by
        rw [List.getD_eq_getElem _ _ hin]
        exact hsquare _ (List.getElem_mem hin)
      rw [List.getElem_map, List.getElem_range, ← symbolsAt_extendCells hcode hpos hmax hrowLength hbyte, ← byte_cellAt,
        List.getD_eq_getElem rows [] hin]
      simp [symbolsAt, columnCells]

/-- **Every row and every column passes the check.** -/
theorem grid_valid : gridHasValidReedSolomon rs ((List.range (k * rsExtensionFactor)).flatMap fun row =>
    (List.range (k * rsExtensionFactor)).map (entry enc k rows row)) k = true := by
  set n := k * rsExtensionFactor with hn
  set cells := (List.range n).flatMap fun row => (List.range n).map (entry enc k rows row) with hcells
  have hentry : ∀ row < n, ∀ column < n, cellAt cells (row * n + column) = entry enc k rows row column := by
    intro row hrow column hcolumn
    exact getD_grid (entry enc k rows) (FixedBytes.zero 256) hrow hcolumn
  -- a line is checked byte by byte: each index gives one codeword
  have hline : ∀ line : List Cell, line.length = n →
      (∀ byteIndex < cellBytes, ∃ s : Bytes, s.length = k ∧ symbolsAt line byteIndex = enc k s) →
      isValidRsCodeword rs line k = true := by
    intro line hlength hwords
    unfold isValidRsCodeword
    rw [Bool.and_eq_true, decide_eq_true_iff, List.all_eq_true]
    refine ⟨⟨hlength, hpos, hmax⟩, ?_⟩
    intro byteIndex hbyte
    refine (hcode.check k hpos hmax _ ?_).2 (hwords byteIndex (List.mem_range.1 hbyte))
    rw [List.length_map, hlength]
  simp only [gridHasValidReedSolomon, Bool.and_eq_true, decide_eq_true_iff, List.all_eq_true, List.mem_range, ← hn]
  refine ⟨⟨length_grid _ _ _, ?_⟩, ?_⟩
  · intro row hrow
    refine hline _ (by simp [rowOf]) ?_
    intro byteIndex hbyte
    obtain ⟨s, hs, hword⟩ := (entries_codewords hcode hpos hmax hrows hsquare hbyte).2 row hrow
    refine ⟨s, hs, ?_⟩
    rw [← hword]
    unfold symbolsAt rowOf
    rw [List.map_map]
    apply List.map_congr_left
    intro column hcolumn
    rw [Function.comp_apply, hentry row hrow column (List.mem_range.1 hcolumn)]
  · intro column hcolumn
    refine hline _ (by simp [columnOf]) ?_
    intro byteIndex hbyte
    obtain ⟨s, hs, hword⟩ := (entries_codewords hcode hpos hmax hrows hsquare hbyte).1 column
    refine ⟨s, hs, ?_⟩
    rw [← hword]
    unfold symbolsAt columnOf
    rw [List.map_map]
    apply List.map_congr_left
    intro row hrow
    rw [Function.comp_apply, hentry row (List.mem_range.1 hrow) column hcolumn]

end Grid

/-! ## Payloads -/

theorem ceilSqrt_ok {value : ℕ} (hpos : value ≠ 0) (hmax : value ≤ maxDataSide * maxDataSide) :
    ∃ k, ceilSqrt value = .ok k ∧ k ≠ 0 ∧ k ≤ maxDataSide ∧ value ≤ k * k := by
  have hlow := Nat.sqrt_le value
  have hhigh := Nat.lt_succ_sqrt value
  have hsmall : value ≤ u32Max := by
    unfold maxDataSide rsExtensionFactor at hmax
    unfold u32Max
    omega
  unfold ceilSqrt requirePositiveU32 requireU32
  rw [ensure_of _ hsmall, ok_bind, ensure_of _ hpos, ok_bind]
  by_cases hexact : Nat.sqrt value * Nat.sqrt value = value
  · refine ⟨Nat.sqrt value, by simp [hexact], ?_, ?_, by omega⟩
    · intro hzero
      rw [hzero] at hexact
      omega
    · by_contra hlt
      have hmul := Nat.mul_le_mul (not_le.1 hlt) (not_le.1 hlt)
      rw [hexact] at hmul
      have hsucc : maxDataSide * maxDataSide < (maxDataSide + 1) * (maxDataSide + 1) := by decide
      exact absurd hmul (by simp only [Nat.succ_eq_add_one]; omega)
  · refine ⟨Nat.sqrt value + 1, by simp [hexact], by omega, ?_, ?_⟩
    · by_contra hlt
      have hmul := Nat.mul_le_mul (show maxDataSide ≤ Nat.sqrt value by omega) (show maxDataSide ≤ Nat.sqrt value by omega)
      omega
    · exact hhigh.le

/-- The data cells of a payload, in rows. -/
def dataRows (payload : Bytes) (k : ℕ) : List (List Cell) :=
  (List.range k).map fun row => (List.range k).map fun column => dataCell payload (row * k + column)

theorem flatMap_range_flatMap {α : Type} (g : ℕ → List α) (m n : ℕ) :
    ((List.range m).flatMap fun i => (List.range n).flatMap fun j => g (i * n + j)) = (List.range (m * n)).flatMap g := by
  have hplaces := flatMap_range_mul (fun i => i) m n
  rw [List.map_id'] at hplaces
  rw [← hplaces, List.flatMap_assoc]
  apply List.flatMap_congr
  intro i _
  rw [List.flatMap_map]

/-- The data cells hold the payload, and zeros after it. -/
theorem take_dataCells {payload : Bytes} {k : ℕ} (h : payload.length ≤ k * k * cellBytes) :
    ((List.range k).flatMap fun row => (List.range k).flatMap fun column =>
      (dataCell payload (row * k + column)).bytes).take payload.length = payload := by
  have hbytes : ∀ index, (dataCell payload index).bytes =
      (List.range cellBytes).map fun byteIndex => payload.getD (index * cellBytes + byteIndex) 0 := fun _ => rfl
  rw [flatMap_range_flatMap (fun index => (dataCell payload index).bytes)]
  simp only [hbytes]
  rw [flatMap_range_mul (fun i => payload.getD i 0), ← List.map_take, List.take_range, min_eq_left h]
  exact map_range_getD_self payload 0

section Encoding

variable {C : Crypto} {rs : ℕ → Bytes → Bool}

theorem Commitment.make_ok {f : CommitmentFields} {c : Commitment C} :
    Commitment.make C f = .ok c ↔ c.toCommitmentFields = f := by
  unfold Commitment.make
  split
  · rw [Except.ok.injEq]
    exact ⟨fun h => h ▸ rfl, fun h => by cases h; rfl⟩
  · rename_i e he
    refine ⟨fun h => (by cases h), fun h => ?_⟩
    rw [← h, c.valid] at he
    cases he

theorem Encoding.make_ok {f : EncodingFields C} {e : Encoding C rs} :
    Encoding.make C rs f = .ok e ↔ e.toEncodingFields = f := by
  unfold Encoding.make
  split
  · rw [Except.ok.injEq]
    exact ⟨fun h => h ▸ rfl, fun h => by cases h; rfl⟩
  · rename_i err he
    refine ⟨fun h => (by cases h), fun h => ?_⟩
    rw [← h, e.valid] at he
    cases he

/-- A grid of the right size that passes the check is encoded. -/
theorem encoding_returns {payloadLength k : ℕ} {cells : List Cell} (hpayload : payloadLength ≤ u64Max) (hpos : k ≠ 0)
    (hmax : k ≤ maxDataSide) (hlength : cells.length = k * rsExtensionFactor * (k * rsExtensionFactor))
    (hgrid : gridHasValidReedSolomon rs cells k = true) :
    ∃ e : Encoding C rs, (do
        let layers ← orderedMerkleLayers C (cellRecords cells (k * rsExtensionFactor))
        let commitment ← Commitment.make C ⟨payloadLength, k, k * rsExtensionFactor, rootOfLayers layers,
          commitmentRoot C payloadLength k (k * rsExtensionFactor) (rootOfLayers layers)⟩
        Encoding.make C rs ⟨commitment, cells⟩) = .ok e ∧
      e.cells = cells ∧ e.commitment.payloadLength = payloadLength ∧ e.commitment.dataSide = k ∧
      e.commitment.extendedSide = k * rsExtensionFactor := by
  set n := k * rsExtensionFactor with hn
  have hsmall : k ≤ 127 := hmax
  have htwice : n = k * 2 := hn
  have hgridSize : n * n ≤ 254 * 254 := Nat.mul_le_mul (by omega) (by omega)
  have hsome : 0 < n * n := Nat.mul_pos (by omega) (by omega)
  have hrecords : (cellRecords cells n).length = n * n := by
    unfold cellRecords
    rw [List.length_map, List.length_zipIdx, hlength]
  have hk : k ≤ u32Max := by
    unfold u32Max
    omega
  have hside : n ≤ u32Max := by
    unfold u32Max
    omega
  set layers := layersFrom C (cellRecords cells n).length 0 (leavesOf C (cellRecords cells n)) with hlayersEq
  have hlayers : orderedMerkleLayers C (cellRecords cells n) = .ok layers := by
    unfold orderedMerkleLayers
    rw [ensure_of _ (List.ne_nil_of_length_pos (by omega)), ok_bind, ensure_of _ (by unfold u32Max; omega)]
    rfl
  -- the sides of a small square pass every range check
  have hcommit : (⟨payloadLength, k, n, rootOfLayers layers, commitmentRoot C payloadLength k n (rootOfLayers layers)⟩ :
      CommitmentFields).postInit C = .ok () := by
    unfold CommitmentFields.postInit requirePositiveU32 requireU32
    dsimp only
    rw [ensure_of _ hpayload, ok_bind, ensure_of _ hk, ok_bind, ensure_of _ hpos, ok_bind, ensure_of _ hside, ok_bind,
      ensure_of _ (by omega), ok_bind, ensure_of _ hn, ok_bind, ensure_of _ rfl]
  have hvalid : (⟨⟨_, hcommit⟩, cells⟩ : EncodingFields C).postInit C rs = .ok () := by
    unfold EncodingFields.postInit
    dsimp only
    rw [ensure_of _ hlength, ok_bind, hlayers, ok_bind, ensure_of _ rfl, ok_bind]
    exact ensure_of _ hgrid
  refine ⟨⟨_, hvalid⟩, ?_, rfl, rfl, rfl, rfl⟩
  rw [hlayers, ok_bind, (Commitment.make_ok (c := ⟨_, hcommit⟩)).2 rfl, ok_bind]
  exact Encoding.make_ok.2 rfl

/-- The bytes of the data cells, row by row. -/
def Encoding.dataBytes (e : Encoding C rs) : Bytes :=
  (List.range e.commitment.dataSide).flatMap fun row => (List.range e.commitment.dataSide).flatMap fun column =>
    (cellAt e.cells (row * e.commitment.extendedSide + column)).bytes

variable {F : Type} [CommSemiring F] {sym : Byte ≃ F} {enc : ℕ → Bytes → Bytes}

/-- **Payloads are encoded, and can be read off the data cells.** In particular the encoder's
own check of every row and every column succeeds. -/
theorem encodePayload_recoverable (C : Crypto) (hcode : SystematicLinear F sym enc rs) {payload : Bytes}
    (hlength : payload.length ≤ maxPayloadBytes) :
    ∃ e : Encoding C rs, encodePayload C rs enc payload = .ok e ∧
      gridHasValidReedSolomon rs e.cells e.commitment.dataSide = true ∧
      e.dataBytes.take e.commitment.payloadLength = payload := by
  have hmaxBytes : maxPayloadBytes = 127 * 127 * 256 := rfl
  have hcells : maxDataSide * maxDataSide = 127 * 127 := rfl
  have hcount : max 1 (ceilDiv payload.length cellBytes) ≤ maxDataSide * maxDataSide := by
    unfold ceilDiv cellBytes
    omega
  -- the side is the least whose square has room for the cells
  obtain ⟨k, hsqrt, hpos, hmax, henough⟩ := ceilSqrt_ok (by omega) hcount
  have hroom : payload.length ≤ k * k * cellBytes := by
    unfold ceilDiv cellBytes at henough
    unfold cellBytes
    omega
  have hrows : (dataRows payload k).length = k := by simp [dataRows]
  have hsquare : ∀ row ∈ dataRows payload k, row.length = k := by
    intro row hrow
    obtain ⟨i, -, rfl⟩ := List.mem_map.1 hrow
    simp
  have hgrid := grid_valid hcode hpos hmax hrows hsquare
  set n := k * rsExtensionFactor with hn
  set cells := (List.range n).flatMap fun row => (List.range n).map (entry enc k (dataRows payload k) row) with hcellsEq
  have hu64 : payload.length ≤ u64Max := by
    unfold u64Max
    omega
  obtain ⟨e, hencode, hcellsOf, hpayloadLength, hdataSide, hextendedSide⟩ :=
    encoding_returns (C := C) hu64 hpos hmax (length_grid _ n n) hgrid
  refine ⟨e, ?_, by rw [hcellsOf, hdataSide]; exact hgrid, ?_⟩
  · unfold encodePayload
    dsimp only
    rw [ensure_of _ (by unfold u64Max; omega), ok_bind, hsqrt, ok_bind, ensure_of _ hmax, ok_bind]
    change (rsExtendMatrix enc (dataRows payload k) >>= _) = _
    rw [rsExtendMatrix_eq hcode hpos hmax hrows hsquare, ok_bind, ← List.flatMap_def]
    exact hencode
  · -- the code is systematic: cell by cell, the upper left quarter is the payload
    unfold Encoding.dataBytes
    rw [hcellsOf, hpayloadLength, hdataSide, hextendedSide]
    conv_rhs => rw [← take_dataCells hroom]
    congr 1
    apply List.flatMap_congr
    intro row hrow
    apply List.flatMap_congr
    intro column hcolumn
    have hrowLt : row < k := List.mem_range.1 hrow
    have hcolumnLt : column < k := List.mem_range.1 hcolumn
    have hwide : k ≤ n := Nat.le_mul_of_pos_right k (by decide)
    have hcell : cellAt cells (row * n + column) = entry enc k (dataRows payload k) row column :=
      getD_grid (entry enc k (dataRows payload k)) (FixedBytes.zero 256) (by omega) (by omega)
    have hrowData : (dataRows payload k).getD row [] = (List.range k).map fun column => dataCell payload (row * k + column) :=
      getD_map_range _ [] hrowLt
    rw [hcell, entry_data hcode hpos hmax hrows hrowLt, hrowData,
      cellAt_extendCells hcode hpos hmax (by simp) hcolumnLt]
    exact congrArg FixedBytes.bytes (getD_map_range _ _ hcolumnLt)

end Encoding

/-- The code that repeats its symbols; for one symbol it is the Reed-Solomon code. -/
def repeatEncoder (_ : ℕ) (s : Bytes) : Bytes := s ++ s

/-- The check of the code that repeats its symbols. -/
def repeatCheck (k : ℕ) (w : Bytes) : Bool := w.take k = w.drop k

/-- Bytes as residues. -/
def residueOf : Byte ≃ ZMod 256 := Equiv.refl _

theorem repeat_systematicLinear : SystematicLinear (ZMod 256) residueOf repeatEncoder repeatCheck where
  encoder k hpos _ := by
    refine ⟨?_, ?_⟩
    · intro s hs
      rw [repeatEncoder, List.length_append, hs]
      exact (Nat.mul_two k).symm
    · have hmod : ∀ i : Fin (k * rsExtensionFactor), i.val % k < k := fun i => Nat.mod_lt _ (Nat.pos_of_ne_zero hpos)
      refine ⟨LinearMap.funLeft (ZMod 256) (ZMod 256) fun i => ⟨i.val % k, hmod i⟩, ?_⟩
      intro s hs i
      have hlt : i.val < k * 2 := i.isLt
      rw [LinearMap.funLeft_apply, repeatEncoder]
      by_cases hfirst : i.val < k
      · rw [List.getD_append _ _ _ _ (by omega)]
        exact congrArg (fun a => residueOf (s.getD a 0)) (Nat.mod_eq_of_lt hfirst).symm
      · have hback : i.val - k = i.val % k := by
          rw [Nat.mod_eq_sub_mod (by omega), Nat.mod_eq_of_lt (by omega)]
        rw [List.getD_append_right _ _ _ _ (by omega), hs]
        exact congrArg (fun a => residueOf (s.getD a 0)) hback
  systematic k _ _ s hs := by
    rw [repeatEncoder, ← hs, List.take_left]
  check k _ _ w hw := by
    rw [repeatCheck, decide_eq_true_iff]
    have hlength : w.length = k * 2 := hw
    constructor
    · intro h
      refine ⟨w.take k, by rw [List.length_take]; omega, ?_⟩
      unfold repeatEncoder
      conv_rhs =>
        rhs
        rw [h]
      exact (List.take_append_drop k w).symm
    · rintro ⟨s, hs, rfl⟩
      unfold repeatEncoder
      rw [← hs, List.take_left, List.drop_left]

theorem encodePayload_recoverable_repeat :
    ∃ e : Encoding sampleCrypto repeatCheck, encodePayload sampleCrypto repeatCheck repeatEncoder [1, 2, 3] = .ok e ∧
      gridHasValidReedSolomon repeatCheck e.cells e.commitment.dataSide = true ∧
      e.dataBytes.take e.commitment.payloadLength = [1, 2, 3] :=
  encodePayload_recoverable sampleCrypto repeat_systematicLinear (by decide)

end TensorPow.Das
