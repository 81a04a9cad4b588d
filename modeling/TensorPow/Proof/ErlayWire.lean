import TensorPow.Coder.Slices
import TensorPow.Proof.ErlayDecode
import TensorPow.Proof.Routing
import TensorPow.Wire.Slice

/-!
# The bytes of a sketch

`ErlaySketch.to_bytes` and `from_bytes` are inverse to each other: the bytes of a sketch that may
be decoded are read back, and bytes that are read are those of the sketch.
-/

namespace TensorPow

namespace Erlay

open Wire

namespace ErlaySketch

/-- A number that stands between two strings. -/
theorem readUint_append (w : ℕ) (front middle rest : Bytes) (h : middle.length = w) :
    readUint w (front ++ middle ++ rest) front.length = ofLe middle := by
  unfold readUint
  rw [slice_append front middle rest rfl h]

variable {sketch : ErlaySketch}

/-- The syndromes of a sketch in bytes. -/
def body (sketch : ErlaySketch) : Bytes := sketch.syndromes.flatMap fun syndrome => le 8 syndrome.val

theorem length_body (sketch : ErlaySketch) : (body sketch).length = 2 * sketch.capacity * 8 := by
  unfold body
  rw [List.length_flatMap]
  simp [sketch.length_ok]

/-- The header of a sketch in bytes. -/
def header (sketch : ErlaySketch) : Bytes :=
  sketchMagic ++ le 2 codecErlay ++ le 2 fieldBits ++ le 4 sketch.shardId ++ le 2 sketch.capacity ++
    le 2 sketch.syndromes.length

theorem length_header (sketch : ErlaySketch) : (header sketch).length = sketchHeaderBytes := by
  unfold header
  simp [sketchHeaderBytes]

theorem toBytes_eq (sketch : ErlaySketch) : sketch.toBytes = header sketch ++ body sketch := rfl

theorem shardId_lt (sketch : ErlaySketch) : sketch.shardId < 256 ^ 4 := by
  obtain ⟨hle, -⟩ := requireShardId_ok.1 sketch.shardId_ok
  unfold u32Max at hle
  omega

theorem capacity_bounds (sketch : ErlaySketch) : sketch.capacity ≠ 0 ∧ sketch.capacity ≤ maxCapacity := by
  have h := sketch.capacity_ok
  unfold requireCapacity at h
  obtain ⟨_, hpos, h⟩ := Exn.bind_ok.1 h
  obtain ⟨_, hle, -⟩ := Exn.bind_ok.1 h
  exact ⟨Exn.ensure_ok.1 hpos, Exn.ensure_ok.1 hle⟩

/-- A syndrome is read from its place. -/
theorem readSyndrome_toBytes (sketch : ErlaySketch) {i : ℕ} (hi : i < sketch.syndromes.length) :
    readSyndrome sketch.toBytes (sketchHeaderBytes + i * fieldBytes) = sketch.syndromes[i] := by
  have hslice := Coder.slice_flatMap (fun syndrome : FieldElement => le 8 syndrome.val) (fun _ => le_length 8 _)
    sketch.syndromes hi
  apply FieldElement.ext
  show ofLe ((sketch.toBytes.drop (sketchHeaderBytes + i * fieldBytes)).take 8) = _
  rw [toBytes_eq, ← length_header sketch, List.drop_length_add_append]
  show ofLe (((body sketch).drop (i * 8)).take 8) = _
  unfold body
  rw [hslice, ofLe_le_of_lt]
  exact lt_of_lt_of_eq (sketch.syndromes[i]).isLt (by decide)

/-- **The bytes of a sketch are read back**, within the limit of the reader. -/
theorem fromBytes_toBytes {limit : ℕ} (hlimit : requireDecodeCapacity sketch.capacity limit = .ok ()) :
    fromBytes sketch.toBytes limit = .ok sketch := by
  obtain ⟨hpos, hle⟩ := capacity_bounds sketch
  unfold maxCapacity at hle
  have hcount := sketch.length_ok
  have hlen : sketch.toBytes.length = sketchHeaderBytes + 2 * sketch.capacity * fieldBytes := by
    rw [toBytes_eq, List.length_append, length_header, length_body]
    rfl
  -- each field of the header stands at the offset where it is read
  have hcodec : readUint 2 sketch.toBytes 7 = codecErlay := by
    have h := readUint_append 2 sketchMagic (le 2 codecErlay) (le 2 fieldBits ++ le 4 sketch.shardId ++
      le 2 sketch.capacity ++ le 2 sketch.syndromes.length ++ body sketch) (le_length 2 _)
    rw [ofLe_le_of_lt (by decide)] at h
    simpa [toBytes_eq, header, sketchMagic] using h
  have hbits : readUint 2 sketch.toBytes 9 = fieldBits := by
    have h := readUint_append 2 (sketchMagic ++ le 2 codecErlay) (le 2 fieldBits) (le 4 sketch.shardId ++
      le 2 sketch.capacity ++ le 2 sketch.syndromes.length ++ body sketch) (le_length 2 _)
    rw [ofLe_le_of_lt (by decide)] at h
    simpa [toBytes_eq, header, sketchMagic] using h
  have hshard : readUint 4 sketch.toBytes 11 = sketch.shardId := by
    have h := readUint_append 4 (sketchMagic ++ le 2 codecErlay ++ le 2 fieldBits) (le 4 sketch.shardId)
      (le 2 sketch.capacity ++ le 2 sketch.syndromes.length ++ body sketch) (le_length 4 _)
    rw [ofLe_le_of_lt (shardId_lt sketch)] at h
    simpa [toBytes_eq, header, sketchMagic] using h
  have hcapacity : readUint 2 sketch.toBytes 15 = sketch.capacity := by
    have h := readUint_append 2 (sketchMagic ++ le 2 codecErlay ++ le 2 fieldBits ++ le 4 sketch.shardId)
      (le 2 sketch.capacity) (le 2 sketch.syndromes.length ++ body sketch) (le_length 2 _)
    rw [ofLe_le_of_lt (by omega)] at h
    simpa [toBytes_eq, header, sketchMagic] using h
  have hsyndromes : readUint 2 sketch.toBytes 17 = 2 * sketch.capacity := by
    have h := readUint_append 2 (sketchMagic ++ le 2 codecErlay ++ le 2 fieldBits ++ le 4 sketch.shardId ++
      le 2 sketch.capacity) (le 2 sketch.syndromes.length) (body sketch) (le_length 2 _)
    rw [ofLe_le_of_lt (by omega), hcount] at h
    simpa [toBytes_eq, header, sketchMagic, hcount] using h
  have hmagic : sketch.toBytes.take sketchMagic.length = sketchMagic := by
    have hfront : sketch.toBytes = sketchMagic ++ (le 2 codecErlay ++ le 2 fieldBits ++ le 4 sketch.shardId ++
        le 2 sketch.capacity ++ le 2 sketch.syndromes.length ++ body sketch) := by
      simp [toBytes_eq, header]
    rw [hfront, List.take_left]
  have hlist : ((List.range (2 * sketch.capacity)).map fun index =>
      readSyndrome sketch.toBytes (sketchHeaderBytes + index * fieldBytes)) = sketch.syndromes := by
    apply List.ext_getElem
    · simp [hcount]
    · intro i _ hi
      rw [List.getElem_map, List.getElem_range]
      exact readSyndrome_toBytes sketch hi
  unfold fromBytes
  rw [Exn.ensure_of _ (by rw [hlen]; omega), Exn.ok_bind, Exn.ensure_of _ hmagic, Exn.ok_bind, Exn.ensure_of _ hcodec,
    Exn.ok_bind, Exn.ensure_of _ hbits, Exn.ok_bind]
  dsimp only
  rw [hshard, Exn.ensure_of _ sketch.shardId_ok, Exn.ok_bind, hcapacity, Exn.ensure_of _ sketch.capacity_ok, Exn.ok_bind,
    hlimit, Exn.ok_bind, hsyndromes, Exn.ensure_of _ rfl, Exn.ok_bind, Exn.ensure_of _ hlen, Exn.ok_bind, hlist]
  exact make_ok sketch.shardId_ok sketch.capacity_ok hcount

theorem make_fields {shardId capacity : ℕ} {syndromes : List FieldElement}
    (h : make shardId capacity syndromes = .ok sketch) :
    sketch.shardId = shardId ∧ sketch.capacity = capacity ∧ sketch.syndromes = syndromes := by
  unfold make at h
  split at h
  · cases h
  · split at h
    · cases h
    · split at h
      · cases h
        exact ⟨rfl, rfl, rfl⟩
      · cases h

/-- **Bytes that are read are those of the sketch**, and its capacity is within the limit. -/
theorem toBytes_fromBytes {data : Bytes} {limit : ℕ} (h : fromBytes data limit = .ok sketch) :
    data = sketch.toBytes ∧ requireDecodeCapacity sketch.capacity limit = .ok () := by
  unfold fromBytes at h
  obtain ⟨_, hlen, h⟩ := Exn.bind_ok.1 h
  obtain ⟨_, hmagic, h⟩ := Exn.bind_ok.1 h
  obtain ⟨_, hcodec, h⟩ := Exn.bind_ok.1 h
  obtain ⟨_, hbits, h⟩ := Exn.bind_ok.1 h
  dsimp only at h
  obtain ⟨_, -, h⟩ := Exn.bind_ok.1 h
  obtain ⟨_, -, h⟩ := Exn.bind_ok.1 h
  obtain ⟨_, hlimit, h⟩ := Exn.bind_ok.1 h
  obtain ⟨_, hcount, h⟩ := Exn.bind_ok.1 h
  obtain ⟨_, htotal, h⟩ := Exn.bind_ok.1 h
  obtain ⟨hs, hc, hl⟩ := make_fields h
  rw [Exn.ensure_ok] at hlen hmagic hcodec hbits hcount htotal
  refine ⟨?_, by rw [hc]; exact hlimit⟩
  have hheader : sketchHeaderBytes = 19 := rfl
  rw [hheader] at hlen htotal
  rw [hheader] at hl
  -- the syndromes are the slices after the header
  have hbody : body sketch = data.drop 19 := by
    unfold body
    rw [hl, List.flatMap_map]
    have hslices : ∀ i ∈ List.range (readUint 2 data 17),
        le 8 (readSyndrome data (19 + i * fieldBytes)).val = ((data.drop 19).drop (i * 8)).take 8 := by
      intro i hi
      rw [List.mem_range] at hi
      rw [List.drop_drop]
      exact le_ofLe_slice (by
        show 19 + i * 8 + 8 ≤ data.length
        have htotal' : data.length = 19 + readUint 2 data 17 * 8 := htotal
        omega)
    rw [List.flatMap_congr hslices, Coder.flatMap_slices, List.take_of_length_le]
    rw [List.length_drop, htotal]
    show 19 + readUint 2 data 17 * 8 - 19 ≤ readUint 2 data 17 * 8
    omega
  have hcountlen : sketch.syndromes.length = readUint 2 data 17 := by
    rw [hl, List.length_map, List.length_range]
  have hfront : data = data.take sketchMagic.length ++ data.drop 7 := (List.take_append_drop 7 data).symm
  rw [toBytes_eq, hbody]
  unfold header
  rw [hs, hc, hcountlen, ← hcodec, ← hbits]
  unfold readUint
  rw [le_ofLe_slice (by omega), le_ofLe_slice (by omega), le_ofLe_slice (by omega), le_ofLe_slice (by omega),
    le_ofLe_slice (by omega)]
  simp only [List.append_assoc]
  rw [slice_append_drop data 17 2, slice_append_drop data 15 2, slice_append_drop data 11 4, slice_append_drop data 9 2,
    slice_append_drop data 7 2]
  conv_lhs => rw [hfront, hmagic]

/-- **The wire format of sketches.** -/
theorem sketch_wire (data : Bytes) (limit : ℕ) (sketch : ErlaySketch) :
    fromBytes data limit = .ok sketch ↔ data = sketch.toBytes ∧ requireDecodeCapacity sketch.capacity limit = .ok () := by
  constructor
  · exact toBytes_fromBytes
  · rintro ⟨rfl, hlimit⟩
    exact fromBytes_toBytes hlimit

end ErlaySketch

end Erlay

end TensorPow
