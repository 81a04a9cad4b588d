import TensorPow.Coder.Interval
import TensorPow.Spec.Template

/-!
# The range coder reads back what it wrote

* `BitWriter.Holds`: the bits that a writer has been given.
* `RangeModel.Ok`: the frequencies of a model are positive and add up to its total.
* `renormOffset`, `codeBits`: what the inner loop subtracts, and how often it runs for some
  data. `codeBits` is the length of the code of the data, but for the two bits that end it.
* `Carries`: what a reader of the bytes is given, bit by bit.
* `RangeEncoder.Contains`: the bits name a number within the registers. `shift_contains` is
  the step of the inner loop, `encode_step` that of the loop over the data and `encode_rounds`
  the whole run: whatever stands behind the code, the two sides keep in step.
* `rangeDecode_rangeEncode`, `rangeCoder_roundTrip`: the code of some data, its length, and
  how the decoder goes over it.
-/

namespace TensorPow

open Wire Coder

namespace TemplateCodec

/-! ## The bit writer -/

theorem shiftLeft_or_bit (x : ℕ) (b : Bool) : (x <<< 1) ||| b.toNat = 2 * x + b.toNat := by
  have hlt : b.toNat < 2 ^ 1 := Bool.toNat_lt b
  rw [← Nat.shiftLeft_add_eq_or_of_lt hlt, Nat.shiftLeft_eq]
  omega

namespace BitWriter

/-- The writer has been given these bits. -/
structure Holds (w : BitWriter) (bits : List Bool) : Prop where
  bits_eq : w.bits = bits.length % 8
  data_eq : w.data = (List.range (bits.length / 8)).map (byteAt bits)
  current_eq : w.current = value (bits.drop (8 * (bits.length / 8)))

theorem init_holds : Holds init [] := ⟨rfl, rfl, rfl⟩

variable {w : BitWriter} {bits : List Bool}

theorem byteAt_append {i : ℕ} (more : List Bool) (h : i < bits.length / 8) :
    byteAt (bits ++ more) i = byteAt bits i := by
  unfold byteAt
  rw [List.drop_append_of_le_length (by omega), front_append _ _ (by rw [List.length_drop]; omega)]

theorem write_holds (h : Holds w bits) (b : Bool) : Holds (w.write b) (bits ++ [b]) := by
  have hlen : (bits ++ [b]).length = bits.length + 1 := by simp
  have hdrop : (bits ++ [b]).drop (8 * (bits.length / 8)) = bits.drop (8 * (bits.length / 8)) ++ [b] :=
    List.drop_append_of_le_length (by omega)
  have hcurrent : (w.current <<< 1) ||| b.toNat = value ((bits ++ [b]).drop (8 * (bits.length / 8))) := by
    have hbit : value [b] = b.toNat := by
      cases b <;> rfl
    rw [shiftLeft_or_bit, h.current_eq, hdrop, value_append, hbit, List.length_singleton]
    omega
  -- the bytes that are complete do not see the new bit
  have hfront : (List.range (bits.length / 8)).map (byteAt (bits ++ [b])) =
      (List.range (bits.length / 8)).map (byteAt bits) := by
    refine List.map_congr_left fun i hi => ?_
    exact byteAt_append _ (List.mem_range.1 hi)
  unfold write
  dsimp only
  split
  · -- the byte is full
    rename_i hfull
    rw [h.bits_eq] at hfull
    have hdiv : (bits ++ [b]).length / 8 = bits.length / 8 + 1 := by omega
    have hwhole : ((bits ++ [b]).drop (8 * (bits.length / 8))).length = 8 := by
      rw [List.length_drop]
      omega
    refine ⟨?_, ?_, ?_⟩
    · dsimp only
      omega
    · rw [hdiv, List.range_succ, List.map_append, hfront, h.data_eq, List.map_singleton, hcurrent]
      unfold byteAt value
      rw [hwhole]
    · rw [hdiv, List.drop_eq_nil_of_le (by omega)]
      rfl
  · rename_i hpart
    rw [h.bits_eq] at hpart
    have hdiv : (bits ++ [b]).length / 8 = bits.length / 8 := by omega
    refine ⟨?_, ?_, ?_⟩
    · dsimp only
      rw [h.bits_eq]
      omega
    · rw [hdiv, hfront]
      exact h.data_eq
    · rw [hdiv]
      exact hcurrent

theorem writes_holds (h : Holds w bits) (more : List Bool) : Holds (more.foldl write w) (bits ++ more) := by
  induction more generalizing w bits with
  | nil =>
    rw [List.append_nil]
    exact h
  | cons b more ih =>
    have hrest := ih (write_holds h b)
    rw [List.append_assoc] at hrest
    exact hrest

theorem finish_eq (h : Holds w bits) : w.finish = pack bits := by
  unfold finish pack
  split
  · rename_i hpart
    rw [h.bits_eq] at hpart
    have hcount : (bits.length + 7) / 8 = bits.length / 8 + 1 := by omega
    have hlen : (bits.drop (8 * (bits.length / 8))).length = bits.length % 8 := by
      rw [List.length_drop]
      omega
    have hpast := front_past (bits.drop (8 * (bits.length / 8))) (8 - bits.length % 8)
    rw [hlen, show bits.length % 8 + (8 - bits.length % 8) = 8 by omega] at hpast
    rw [hcount, List.range_succ, List.map_append, ← h.data_eq, List.map_singleton]
    unfold byteAt
    rw [hpast, h.current_eq, h.bits_eq, Nat.shiftLeft_eq]
  · rename_i hwhole
    rw [h.bits_eq, not_not] at hwhole
    have hcount : (bits.length + 7) / 8 = bits.length / 8 := by omega
    rw [hcount]
    exact h.data_eq

end BitWriter

/-- The reader of some bytes is given these bits, and zeros after them. -/
def Carries (data : Bytes) (bits : List Bool) : Prop := ∀ i, readBit data i = (bits.getD i false).toNat

theorem readBit_eq (data : Bytes) (i : ℕ) :
    readBit data i = ((data.getD (i / 8) 0).val.testBit (7 - i % 8)).toNat := by
  unfold readBit
  split
  · rename_i hpast
    rw [List.getD_eq_default _ _ hpast]
    simp
  · rw [Nat.testBit, Nat.and_comm, Nat.one_and_eq_mod_two]
    rcases Nat.mod_two_eq_zero_or_one ((data.getD (i / 8) 0).val >>> (7 - i % 8)) with h | h
    · rw [h]
      rfl
    · rw [h]
      rfl

/-- Bytes behind a code add bits behind those of the code, and change none of them. -/
theorem append_carries (bits : List Bool) (tail : Bytes) : ∃ more, Carries (pack bits ++ tail) (bits ++ more) := by
  set data := pack bits ++ tail with hdata
  have hlen : data.length = (bits.length + 7) / 8 + tail.length := by
    rw [hdata, List.length_append, length_pack]
  refine ⟨(List.range (8 * data.length - bits.length)).map fun j => decide (readBit data (bits.length + j) = 1),
    fun i => ?_⟩
  have hbit : readBit data i = 0 ∨ readBit data i = 1 := by
    rw [readBit_eq]
    cases (data.getD (i / 8) 0).val.testBit (7 - i % 8)
    · exact .inl rfl
    · exact .inr rfl
  by_cases hfront : i < bits.length
  · -- the bits of the code
    have hbyte : data.getD (i / 8) 0 = (pack bits).getD (i / 8) 0 :=
      List.getD_append _ _ _ _ (by rw [length_pack]; omega)
    rw [readBit_eq, hbyte, testBit_pack, List.getD_append _ _ _ _ hfront]
  · rw [List.getD_append_right _ _ _ _ (by omega), List.getD_eq_getElem?_getD, List.getElem?_map]
    by_cases hin : i - bits.length < 8 * data.length - bits.length
    · rw [List.getElem?_range hin, Option.map_some, Option.getD_some, Nat.add_sub_cancel' (by omega)]
      rcases hbit with h | h
      · rw [h]
        rfl
      · rw [h]
        rfl
    · have hpast : data.length ≤ i / 8 := by omega
      rw [List.getElem?_eq_none (by rw [List.length_range]; omega)]
      unfold readBit
      rw [if_pos hpast]
      rfl

/-! ## The model -/

namespace RangeModel

/-- The frequencies are positive and add up to the total. -/
structure Ok (m : RangeModel) : Prop where
  length_eq : m.frequencies.length = 256
  pos : ∀ f ∈ m.frequencies, 1 ≤ f
  total_eq : m.total = m.frequencies.sum
  total_lt : m.total < 2 ^ 15

theorem init_ok : Ok init where
  length_eq := List.length_replicate
  pos f hf := by rw [List.eq_of_mem_replicate hf]
  total_eq := by
    unfold init
    rw [List.sum_replicate, smul_eq_mul, Nat.mul_one]
  total_lt := by decide

theorem sum_modify_succ (l : List ℕ) {i : ℕ} (h : i < l.length) : (l.modify i (· + 1)).sum = l.sum + 1 := by
  induction l generalizing i with
  | nil => simp at h
  | cons x l ih =>
    cases i with
    | zero =>
      simp
      omega
    | succ i =>
      have hrest := ih (by simpa using h)
      simp [hrest]
      omega

theorem sum_halved_le (l : List ℕ) (h : ∀ f ∈ l, 1 ≤ f) :
    2 * (l.map fun f => max 1 ((f + 1) / 2)).sum ≤ l.sum + l.length := by
  induction l with
  | nil => simp
  | cons x l ih =>
    have hx := h x List.mem_cons_self
    have hrest := ih fun f hf => h f (List.mem_cons_of_mem _ hf)
    simp only [List.map_cons, List.sum_cons, List.length_cons]
    omega

variable {m : RangeModel}

theorem update_ok (h : m.Ok) (a : Byte) : (m.update a).Ok := by
  have ha : a.val < m.frequencies.length := by
    rw [h.length_eq]
    exact a.isLt
  have hsum := sum_modify_succ m.frequencies ha
  have hlen : (m.frequencies.modify a.val (· + 1)).length = 256 := by
    rw [List.length_modify]
    exact h.length_eq
  have hpos : ∀ f ∈ m.frequencies.modify a.val (· + 1), 1 ≤ f := by
    intro f hf
    obtain ⟨i, hi, rfl⟩ := List.getElem_of_mem hf
    rw [List.getElem_modify]
    have hmem := h.pos _ (List.getElem_mem (by rw [List.length_modify] at hi; exact hi))
    split <;> omega
  have htotal := h.total_eq
  have hlt := h.total_lt
  unfold update
  dsimp only
  split
  · -- halving the frequencies
    have hhalf := sum_halved_le _ hpos
    refine ⟨?_, ?_, rfl, ?_⟩
    · dsimp only
      rw [List.length_map]
      exact hlen
    · intro f hf
      obtain ⟨g, -, rfl⟩ := List.mem_map.1 hf
      exact le_max_left _ _
    · dsimp only
      omega
  · rename_i hsmall
    refine ⟨hlen, hpos, ?_, ?_⟩
    · dsimp only
      omega
    · unfold rangeModelMaxTotal at hsmall
      dsimp only
      omega

/-- A symbol has a share of the total. -/
theorem interval_lt (h : m.Ok) (a : Byte) :
    (m.interval a).1 < (m.interval a).2 ∧ (m.interval a).2 ≤ m.total := by
  have ha : a.val < m.frequencies.length := by
    rw [h.length_eq]
    exact a.isLt
  have hget : m.frequencies.getD a.val 0 = m.frequencies[a.val] := by
    rw [List.getD_eq_getElem?_getD, List.getElem?_eq_getElem ha, Option.getD_some]
  have hpos := h.pos _ (List.getElem_mem ha)
  have hsum : (m.frequencies.take a.val).sum + (m.frequencies[a.val] + (m.frequencies.drop (a.val + 1)).sum) =
      m.frequencies.sum := by
    rw [← List.sum_cons, ← List.drop_eq_getElem_cons ha, ← List.sum_append, List.take_append_drop]
  have htotal := h.total_eq
  unfold interval
  dsimp only
  rw [hget]
  omega

theorem symbolLoop_eq {scaled : ℕ} : ∀ {fs : List ℕ} {i symbol cumulative : ℕ}, i < fs.length →
    cumulative + (fs.take i).sum ≤ scaled → scaled < cumulative + (fs.take i).sum + fs.getD i 0 →
    symbolLoop scaled fs symbol cumulative =
      .ok (Fin.ofNat 256 (symbol + i), cumulative + (fs.take i).sum, cumulative + (fs.take i).sum + fs.getD i 0)
  | [], i, symbol, cumulative, hi, _, _ => by simp at hi
  | f :: fs, 0, symbol, cumulative, _, _, hlt => if_pos hlt
  | f :: fs, i + 1, symbol, cumulative, hi, hle, hlt => by
    rw [List.take_succ_cons, List.sum_cons, ← Nat.add_assoc] at hle hlt
    rw [List.getD_cons_succ] at hlt
    rw [List.take_succ_cons, List.sum_cons, ← Nat.add_assoc cumulative, List.getD_cons_succ]
    have hskip : ¬scaled < cumulative + f := by omega
    rw [symbolLoop, if_neg hskip, symbolLoop_eq (by simpa using hi) hle hlt, Nat.add_right_comm symbol 1 i,
      Nat.add_assoc symbol i 1]

/-- A scaled value within the share of a symbol gives back the symbol. -/
theorem symbolForScaled_eq (h : m.Ok) {a : Byte} {scaled : ℕ} (hle : (m.interval a).1 ≤ scaled)
    (hlt : scaled < (m.interval a).2) : m.symbolForScaled scaled = .ok (a, m.interval a) := by
  have hshare := interval_lt h a
  have ha : a.val < m.frequencies.length := by
    rw [h.length_eq]
    exact a.isLt
  have hloop : symbolLoop scaled m.frequencies 0 0 = .ok (Fin.ofNat 256 (0 + a.val), 0 + (m.interval a).1,
      0 + (m.interval a).1 + m.frequencies.getD a.val 0) :=
    symbolLoop_eq ha (by rw [Nat.zero_add]; exact hle) (by rw [Nat.zero_add]; exact hlt)
  unfold symbolForScaled requireUint
  rw [Exn.ensure_of _ (by omega), Exn.ok_bind, hloop, Nat.zero_add, Nat.zero_add]
  congr 2
  exact Fin.ext (Nat.mod_eq_of_lt a.isLt)

end RangeModel

/-! ## The inner loop -/

/-- What a round of the inner loop subtracts from the registers; none if it ends. -/
def renormOffset (low high : ℕ) : Option ℕ :=
  if high < rangeCodeHalf then some 0
  else if rangeCodeHalf ≤ low then some rangeCodeHalf
  else if rangeCodeQuarter ≤ low ∧ high < rangeCodeThreeQuarter then some rangeCodeQuarter
  else none

/-- The number of rounds, and the registers after them. -/
def renormRounds : ℕ → ℕ → ℕ → ℕ × ℕ × ℕ
  | 0, low, high => (0, low, high)
  | left + 1, low, high =>
    match renormOffset low high with
    | none => (0, low, high)
    | some c =>
      let r := renormRounds left (2 * (low - c)) (2 * (high - c) + 1)
      (r.1 + 1, r.2)

/-- The number of rounds for some data. -/
def codeBits : RangeModel → ℕ → ℕ → Bytes → ℕ
  | _, _, _, [] => 0
  | m, low, high, a :: data =>
    let share := m.interval a
    let inner := narrow low high share.1 share.2 m.total
    let r := renormRounds 32 inner.1 inner.2
    r.1 + codeBits (m.update a) r.2.1 r.2.2 data

/-- The registers between two symbols: no round is due. -/
structure Settled (low high : ℕ) : Prop where
  le : low ≤ high
  high_lt : high < 2 ^ 32
  wide : 2 ^ 30 < high - low + 1
  straddles : low < 2 ^ 31 ∧ 2 ^ 31 ≤ high
  far : low < 2 ^ 30 ∨ 3 * 2 ^ 30 ≤ high

theorem init_settled : Settled 0 (rangeCodeFull - 1) := by
  constructor <;> decide

theorem half_eq : rangeCodeHalf = 2 ^ 31 := rfl
theorem quarter_eq : rangeCodeQuarter = 2 ^ 30 := rfl
theorem threeQuarter_eq : rangeCodeThreeQuarter = 3 * 2 ^ 30 := rfl

variable {low high c : ℕ}

theorem renormOffset_none (hle : low ≤ high) (hlt : high < 2 ^ 32) (h : renormOffset low high = none) :
    Settled low high := by
  unfold renormOffset at h
  rw [half_eq, quarter_eq, threeQuarter_eq] at h
  split at h
  · cases h
  split at h
  · cases h
  split at h
  · cases h
  constructor <;> omega

/-- A round leaves the registers in order. -/
theorem renormOffset_some (hle : low ≤ high) (hlt : high < 2 ^ 32) (h : renormOffset low high = some c) :
    c ≤ low ∧ 2 * (high - c) + 1 < 2 ^ 32 ∧ high - low + 1 ≤ 2 ^ 31 := by
  unfold renormOffset at h
  rw [half_eq, quarter_eq, threeQuarter_eq] at h
  split at h
  · cases h
    omega
  split at h
  · cases h
    omega
  split at h
  · cases h
    omega
  cases h

/-- **The loop ends within its rounds.** Every round doubles the span. -/
theorem renormRounds_settled : ∀ {left : ℕ} {low high : ℕ}, low ≤ high → high < 2 ^ 32 →
    2 ^ 32 ≤ (high - low + 1) * 2 ^ left →
      Settled (renormRounds left low high).2.1 (renormRounds left low high).2.2 ∧
      (renormRounds left low high).2.2 - (renormRounds left low high).2.1 + 1 =
        2 ^ (renormRounds left low high).1 * (high - low + 1)
  | 0, low, high, hle, hlt, hspan => by
    refine ⟨?_, by simp [renormRounds]⟩
    show Settled low high
    constructor <;> omega
  | left + 1, low, high, hle, hlt, hspan => by
    unfold renormRounds
    cases hoffset : renormOffset low high with
    | none => exact ⟨renormOffset_none hle hlt hoffset, by simp⟩
    | some c =>
      obtain ⟨hc, hhigh, -⟩ := renormOffset_some hle hlt hoffset
      have hwidth : 2 * (high - c) + 1 - 2 * (low - c) + 1 = 2 * (high - low + 1) := by omega
      have hnext : 2 ^ 32 ≤ (2 * (high - c) + 1 - 2 * (low - c) + 1) * 2 ^ left := by
        rw [hwidth]
        calc 2 ^ 32 ≤ (high - low + 1) * 2 ^ (left + 1) := hspan
          _ = 2 * (high - low + 1) * 2 ^ left := by ring
      obtain ⟨hsettled, hspan'⟩ := renormRounds_settled (by omega) hhigh hnext
      refine ⟨hsettled, ?_⟩
      dsimp only
      rw [hspan', hwidth]
      ring

/-- The rounds of the coder are enough. -/
theorem rounds_settled (hle : low ≤ high) (hlt : high < 2 ^ 32) :
    Settled (renormRounds 32 low high).2.1 (renormRounds 32 low high).2.2 ∧
      (renormRounds 32 low high).2.2 - (renormRounds 32 low high).2.1 + 1 =
        2 ^ (renormRounds 32 low high).1 * (high - low + 1) :=
  renormRounds_settled hle hlt (Nat.le_mul_of_pos_left _ (Nat.succ_pos _))

/-! ## The encoder -/

theorem shiftLeft_or_one (x : ℕ) : (x <<< 1) ||| 1 = 2 * x + 1 := shiftLeft_or_bit x true

theorem shiftLeft_one (x : ℕ) : x <<< 1 = 2 * x := by
  rw [Nat.shiftLeft_eq]
  omega

namespace RangeEncoder

/-- One round of the inner loop. -/
def shift (e : RangeEncoder) (c : ℕ) : RangeEncoder :=
  let settled := if c = rangeCodeQuarter then { e with pendingBits := e.pendingBits + 1 }
    else e.writeBitPlusFollow (decide (c = rangeCodeHalf))
  { settled with low := e.low - c, high := e.high - c }.double

theorem renormalize_step (left : ℕ) (e : RangeEncoder) : renormalize (left + 1) e =
    match renormOffset e.low e.high with
    | none => e
    | some c => renormalize left (e.shift c) := by
  unfold renormOffset
  rw [renormalize]
  split
  · rfl
  split
  · rfl
  split <;> rfl

/-- Where the registers stand among all numbers of as many bits. -/
def offset (e : RangeEncoder) (bits : List Bool) : ℕ :=
  value bits * 2 ^ e.pendingBits * 2 ^ 32 + (2 ^ e.pendingBits - 1) * 2 ^ 31

/-- How many bits the encoder has settled on, the pending ones included. -/
def depth (e : RangeEncoder) (bits : List Bool) : ℕ := bits.length + e.pendingBits

variable {e : RangeEncoder} {bits B : List Bool}

theorem writeBitPlusFollow_holds (h : e.output.Holds bits) (b : Bool) :
    (e.writeBitPlusFollow b).output.Holds (bits ++ b :: List.replicate e.pendingBits !b) := by
  have hwrites := BitWriter.writes_holds (BitWriter.write_holds h b) (List.replicate e.pendingBits !b)
  rw [List.append_assoc] at hwrites
  exact hwrites

theorem value_follow (b : Bool) (p : ℕ) :
    value (b :: List.replicate p !b) = if b then 2 ^ p else 2 ^ p - 1 := by
  have hcons : b :: List.replicate p (!b) = [b] ++ List.replicate p (!b) := rfl
  rw [hcons, value_append, List.length_replicate]
  cases b with
  | false =>
    rw [Bool.not_false, value_ones]
    simp [value, front]
  | true =>
    rw [Bool.not_true, value_zeros]
    simp [value, front]

/-- **One round**: the registers move by twice what was subtracted, and one bit more is
settled. -/
theorem shift_spec (hc : renormOffset e.low e.high = some c) (h : e.output.Holds bits) :
    ∃ bits', (e.shift c).output.Holds bits' ∧ (e.shift c).offset bits' = 2 * (e.offset bits + c) ∧
      (e.shift c).depth bits' = e.depth bits + 1 ∧ (e.shift c).low = 2 * (e.low - c) ∧
      (e.shift c).high = 2 * (e.high - c) + 1 := by
  have hlow : (e.shift c).low = 2 * (e.low - c) := shiftLeft_one _
  have hhigh : (e.shift c).high = 2 * (e.high - c) + 1 := shiftLeft_or_one _
  have hpow : 1 ≤ 2 ^ e.pendingBits := Nat.one_le_two_pow
  by_cases hquarter : c = rangeCodeQuarter
  · -- the bit stays pending
    have hshift : (e.shift c).output = e.output ∧ (e.shift c).pendingBits = e.pendingBits + 1 := by
      unfold shift
      rw [if_pos hquarter]
      exact ⟨rfl, rfl⟩
    refine ⟨bits, by rw [hshift.1]; exact h, ?_, ?_, hlow, hhigh⟩
    · unfold offset
      rw [hshift.2, hquarter, quarter_eq, pow_succ]
      generalize 2 ^ e.pendingBits = P at hpow
      obtain ⟨P, rfl⟩ : ∃ P', P = P' + 1 := ⟨P - 1, by omega⟩
      rw [show (P + 1) * 2 - 1 = 2 * P + 1 by omega, Nat.add_sub_cancel]
      ring
    · unfold depth
      rw [hshift.2]
      omega
  · -- a bit and the pending ones are written
    have hshift : (e.shift c).output = (e.writeBitPlusFollow (decide (c = rangeCodeHalf))).output ∧
        (e.shift c).pendingBits = 0 := by
      unfold shift
      rw [if_neg hquarter]
      exact ⟨rfl, rfl⟩
    refine ⟨_, by rw [hshift.1]; exact writeBitPlusFollow_holds h _, ?_, ?_, hlow, hhigh⟩
    · unfold offset
      rw [hshift.2, value_append, value_follow, List.length_cons, List.length_replicate, pow_succ, pow_zero]
      -- the other two offsets are those that settle a bit
      have hcases : c = 0 ∨ c = rangeCodeHalf := by
        unfold renormOffset at hc
        split at hc
        · exact .inl (Option.some.inj hc).symm
        split at hc
        · exact .inr (Option.some.inj hc).symm
        split at hc
        · exact absurd (Option.some.inj hc).symm hquarter
        cases hc
      generalize 2 ^ e.pendingBits = P at hpow
      obtain ⟨P, rfl⟩ : ∃ P', P = P' + 1 := ⟨P - 1, by omega⟩
      rw [Nat.add_sub_cancel]
      rcases hcases with rfl | rfl
      · rw [if_neg (by decide)]
        ring
      · rw [if_pos (by decide), half_eq]
        ring
    · unfold depth
      rw [hshift.2, List.length_append, List.length_cons, List.length_replicate]
      omega

/-- The bits name a number within the registers. -/
def Contains (B : List Bool) (e : RangeEncoder) (bits : List Bool) : Prop :=
  e.low + e.offset bits ≤ front B (32 + e.depth bits) ∧ front B (32 + e.depth bits) < e.high + 1 + e.offset bits

/-- A round does not change which bits name a number within the registers. -/
theorem shift_contains {e' : RangeEncoder} {bits' : List Bool} (hle : e.low ≤ e.high) (hc : c ≤ e.low)
    (hoffset : e'.offset bits' = 2 * (e.offset bits + c)) (hdepth : e'.depth bits' = e.depth bits + 1)
    (hlow : e'.low = 2 * (e.low - c)) (hhigh : e'.high = 2 * (e.high - c) + 1) :
    Contains B e' bits' ↔ Contains B e bits := by
  unfold Contains
  have hlo : e'.low + e'.offset bits' = 2 * (e.low + e.offset bits) := by omega
  have hhi : e'.high + 1 + e'.offset bits' = 2 * (e.high + 1 + e.offset bits) := by omega
  rw [hlo, hhi, hdepth, ← Nat.add_assoc, double_le_front, front_lt_double]

end RangeEncoder

/-! ## The decoder -/

namespace RangeDecoder

/-- One round of the inner loop. -/
def shift (data : Bytes) (d : RangeDecoder) (c : ℕ) : RangeDecoder :=
  RangeDecoder.double data { d with code := d.code - c, low := d.low - c, high := d.high - c }

theorem renormalize_step (data : Bytes) (left : ℕ) (d : RangeDecoder) : renormalize data (left + 1) d =
    match renormOffset d.low d.high with
    | none => d
    | some c => renormalize data left (d.shift data c) := by
  unfold renormOffset
  rw [renormalize]
  split
  · rfl
  split
  · rfl
  split <;> rfl

/-- The decoder has read as many bits as the encoder has settled on, and its code is what
they add to the registers. -/
structure Tracks (B : List Bool) (e : RangeEncoder) (bits : List Bool) (d : RangeDecoder) : Prop where
  low_eq : d.low = e.low
  high_eq : d.high = e.high
  bitOffset_eq : d.bitOffset = 32 + e.depth bits
  code_eq : d.code + e.offset bits = front B (32 + e.depth bits)

variable {e e' : RangeEncoder} {bits bits' B : List Bool} {d : RangeDecoder} {code : Bytes}

theorem shift_tracks (hcarries : Carries code B) (h : Tracks B e bits d) (hin : e.Contains B bits) (hc : c ≤ e.low)
    (hoffset : e'.offset bits' = 2 * (e.offset bits + c)) (hdepth : e'.depth bits' = e.depth bits + 1)
    (hlow : e'.low = 2 * (e.low - c)) (hhigh : e'.high = 2 * (e.high - c) + 1) :
    Tracks B e' bits' (d.shift code c) := by
  have hcode := h.code_eq
  have hin' := hin.1
  refine ⟨?_, ?_, ?_, ?_⟩
  · rw [hlow, ← h.low_eq]
    exact shiftLeft_one _
  · rw [hhigh, ← h.high_eq]
    exact shiftLeft_or_one _
  · show d.bitOffset + 1 = _
    rw [h.bitOffset_eq, hdepth, Nat.add_assoc]
  · have hnext : (d.shift code c).code = 2 * (d.code - c) + (B.getD (32 + e.depth bits) false).toNat := by
      show ((d.code - c) <<< 1) ||| readBit code d.bitOffset = _
      rw [hcarries, h.bitOffset_eq, shiftLeft_or_bit]
    rw [hnext, hoffset, hdepth, ← Nat.add_assoc, front_succ, ← hcode]
    omega

/-- **The inner loops of the two sides keep in step.** -/
theorem renormalize_tracks : ∀ {left : ℕ} {e : RangeEncoder} {bits : List Bool}, e.low ≤ e.high → e.high < 2 ^ 32 →
    e.output.Holds bits → ∃ bits', (e.renormalize left).output.Holds bits' ∧
      (e.renormalize left).depth bits' = e.depth bits + (renormRounds left e.low e.high).1 ∧
      (e.renormalize left).low = (renormRounds left e.low e.high).2.1 ∧
      (e.renormalize left).high = (renormRounds left e.low e.high).2.2 ∧
      ∀ B, ((e.renormalize left).Contains B bits' ↔ e.Contains B bits) ∧
        ∀ code d, Carries code B → e.Contains B bits → Tracks B e bits d →
          Tracks B (e.renormalize left) bits' (RangeDecoder.renormalize code left d)
  | 0, e, bits, hle, hlt, h => ⟨bits, h, rfl, rfl, rfl, fun B => ⟨Iff.rfl, fun code d _ _ htracks => htracks⟩⟩
  | left + 1, e, bits, hle, hlt, h => by
    rw [RangeEncoder.renormalize_step]
    unfold renormRounds
    cases hround : renormOffset e.low e.high with
    | none =>
      refine ⟨bits, h, rfl, rfl, rfl, fun B => ⟨Iff.rfl, fun code d _ _ htracks => ?_⟩⟩
      rw [renormalize_step, htracks.low_eq, htracks.high_eq, hround]
      exact htracks
    | some c =>
      obtain ⟨hc, hhigh', -⟩ := renormOffset_some hle hlt hround
      obtain ⟨bits₁, hholds, hoffset, hdepth, hlow, hhigh⟩ := RangeEncoder.shift_spec hround h
      obtain ⟨bits', hholds', hdepth', hlow', hhigh'', hrest⟩ :=
        renormalize_tracks (by rw [hlow, hhigh]; omega) (by rw [hhigh]; exact hhigh') hholds
      rw [hlow, hhigh] at hdepth' hlow' hhigh''
      refine ⟨bits', hholds', ?_, hlow', hhigh'', fun B => ?_⟩
      · rw [hdepth', hdepth]
        dsimp only
        omega
      · obtain ⟨hiff, htracks⟩ := hrest B
        -- one shift keeps the name within the registers, and the decoder follows it
        have hshift := RangeEncoder.shift_contains (B := B) hle hc hoffset hdepth hlow hhigh
        refine ⟨hiff.trans hshift, fun code d hcarries hin ht => ?_⟩
        rw [renormalize_step, ht.low_eq, ht.high_eq, hround]
        exact htracks _ _ hcarries (hshift.2 hin) (shift_tracks hcarries ht hin hc hoffset hdepth hlow hhigh)

/-- One round of the loop over the symbols. -/
def round (data : Bytes) (d : RangeDecoder) (model : RangeModel) : Except PyError (Byte × RangeDecoder × RangeModel) := do
  let span := d.high - d.low + 1
  let scaled := ((d.code - d.low + 1) * model.total - 1) / span
  let (symbol, cumulativeLow, cumulativeHigh) ← model.symbolForScaled scaled
  let (low, high) := narrow d.low d.high cumulativeLow cumulativeHigh model.total
  return (symbol, renormalize data 32 { d with low, high }, model.update symbol)

/-- Some rounds of the loop: the symbols, and where the decoder stands after them. -/
def rounds (data : Bytes) : ℕ → RangeDecoder → RangeModel → Except PyError (Bytes × RangeDecoder × RangeModel)
  | 0, d, model => .ok ([], d, model)
  | left + 1, d, model => do
    let first ← round data d model
    let rest ← rounds data left first.2.1 first.2.2
    return (first.1 :: rest.1, rest.2)

/-- The loop of the decoder is made of these rounds. -/
theorem decode_eq_rounds (data : Bytes) (n : ℕ) (d : RangeDecoder) (m : RangeModel) :
    decode data n d m = (rounds data n d m).map Prod.fst := by
  induction n generalizing d m with
  | zero => rfl
  | succ n ih =>
    unfold decode rounds round
    dsimp only
    cases m.symbolForScaled (((d.code - d.low + 1) * m.total - 1) / (d.high - d.low + 1)) with
    | error e => rfl
    | ok share =>
      simp only [Exn.ok_bind, pure, Except.pure]
      rw [ih]
      cases rounds data n _ _ with
      | error e => rfl
      | ok rest => rfl

end RangeDecoder

/-! ## Going over the data -/

section Run

variable {m : RangeModel}

/-- The interval of a symbol lies within the registers. -/
theorem narrow_within (hs : Settled low high) (hm : m.Ok) (a : Byte) :
    low ≤ (narrow low high (m.interval a).1 (m.interval a).2 m.total).1 ∧
      (narrow low high (m.interval a).1 (m.interval a).2 m.total).1 ≤
        (narrow low high (m.interval a).1 (m.interval a).2 m.total).2 ∧
      (narrow low high (m.interval a).1 (m.interval a).2 m.total).2 ≤ high := by
  obtain ⟨hshare, hshareLe⟩ := RangeModel.interval_lt hm a
  have htotal : 0 < m.total := by omega
  have hlt := hm.total_lt
  have hwide := hs.wide
  have hle := hs.le
  have hlow : (high - low + 1) * (m.interval a).1 / m.total < (high - low + 1) * (m.interval a).2 / m.total :=
    share_lt htotal (by omega) hshare
  have hhigh : (high - low + 1) * (m.interval a).2 / m.total ≤ high - low + 1 := share_le htotal hshareLe
  unfold narrow
  dsimp only
  generalize (high - low + 1) * (m.interval a).1 / m.total = x at hlow
  generalize (high - low + 1) * (m.interval a).2 / m.total = y at hlow hhigh
  omega

/-- A code within the interval of a symbol is read as the symbol. -/
theorem symbol_of_code (hs : Settled low high) (hm : m.Ok) (a : Byte) {code : ℕ}
    (hlow : (narrow low high (m.interval a).1 (m.interval a).2 m.total).1 ≤ code)
    (hhigh : code ≤ (narrow low high (m.interval a).1 (m.interval a).2 m.total).2) :
    m.symbolForScaled (((code - low + 1) * m.total - 1) / (high - low + 1)) = .ok (a, m.interval a) := by
  obtain ⟨hshare, hshareLe⟩ := RangeModel.interval_lt hm a
  have htotal : 0 < m.total := by omega
  have hwide := hs.wide
  have hlt := hm.total_lt
  have hpos : (high - low + 1) * (m.interval a).1 / m.total < (high - low + 1) * (m.interval a).2 / m.total :=
    share_lt htotal (by omega) hshare
  unfold narrow at hlow hhigh
  dsimp only at hlow hhigh
  have hlow' : (high - low + 1) * (m.interval a).1 / m.total ≤ code - low := by
    generalize (high - low + 1) * (m.interval a).1 / m.total = x at hlow
    omega
  have hhigh' : code - low < (high - low + 1) * (m.interval a).2 / m.total := by
    generalize (high - low + 1) * (m.interval a).1 / m.total = x at hlow hpos
    generalize (high - low + 1) * (m.interval a).2 / m.total = y at hhigh hpos
    omega
  exact RangeModel.symbolForScaled_eq hm (le_scaled htotal (Nat.succ_pos _) hlow')
    (scaled_lt htotal (Nat.succ_pos _) hhigh')

/-- The bits that end the code name a number within the registers, whatever bits follow. -/
theorem close_contains {e : RangeEncoder} {bits : List Bool} (hs : Settled e.low e.high) (h : e.output.Holds bits) :
    ∃ B, e.close.output.Holds B ∧ B.length = e.depth bits + 2 ∧ ∀ more, e.Contains (B ++ more) bits := by
  set last := decide (¬e.low < rangeCodeQuarter) with hlast
  set B := bits ++ last :: List.replicate (e.pendingBits + 1) (!last) with hB
  have hlen : B.length = e.depth bits + 2 := by
    unfold RangeEncoder.depth
    rw [hB]
    simp only [List.length_append, List.length_cons, List.length_replicate]
    omega
  refine ⟨B, ?_, hlen, fun more => ?_⟩
  · exact RangeEncoder.writeBitPlusFollow_holds (e := { e with pendingBits := e.pendingBits + 1 }) h last
  · -- thirty bits stand behind the two that end the code
    have hfront := front_split (B ++ more) B.length 30
    rw [front_append _ _ le_rfl, show B.length + 30 = 32 + e.depth bits by omega] at hfront
    have htail := front_lt ((B ++ more).drop B.length) 30
    have hvalue : front B B.length = value bits * 2 ^ (e.pendingBits + 1 + 1) +
        (if last then 2 ^ (e.pendingBits + 1) else 2 ^ (e.pendingBits + 1) - 1) := by
      show value B = _
      rw [hB, value_append, RangeEncoder.value_follow, List.length_cons, List.length_replicate]
    unfold RangeEncoder.Contains RangeEncoder.offset
    rw [hfront, hvalue]
    have hpow : 1 ≤ 2 ^ e.pendingBits := Nat.one_le_two_pow
    have hstraddles := hs.straddles
    have hfar := hs.far
    rw [pow_succ 2 (e.pendingBits + 1), pow_succ 2 e.pendingBits]
    generalize front ((B ++ more).drop B.length) 30 = rest at htail
    generalize 2 ^ e.pendingBits = P at hpow
    obtain ⟨P, rfl⟩ : ∃ P', P = P' + 1 := ⟨P - 1, by omega⟩
    rw [Nat.add_sub_cancel]
    -- the closing bits name the second or the third quarter, both within the registers
    cases hcase : last with
    | false =>
      have hquarter : e.low < 2 ^ 30 := by
        rw [hlast, decide_eq_false_iff_not, not_not, quarter_eq] at hcase
        exact hcase
      rw [if_neg (by decide)]
      have hstart : (value bits * ((P + 1) * 2 * 2) + ((P + 1) * 2 - 1)) * 2 ^ 30 =
          2 ^ 30 + (value bits * (P + 1) * 2 ^ 32 + P * 2 ^ 31) := by
        rw [show (P + 1) * 2 - 1 = 2 * P + 1 by omega]
        ring
      rw [hstart]
      omega
    | true =>
      have hquarter : 2 ^ 30 ≤ e.low := by
        rw [hlast, decide_eq_true_iff, not_lt, quarter_eq] at hcase
        exact hcase
      rw [if_pos rfl]
      have hstart : (value bits * ((P + 1) * 2 * 2) + (P + 1) * 2) * 2 ^ 30 =
          2 ^ 31 + (value bits * (P + 1) * 2 ^ 32 + P * 2 ^ 31) := by
        ring
      rw [hstart]
      omega

variable {e : RangeEncoder} {bits : List Bool}

/-- **One symbol**: the registers settle again, and a decoder in step with the encoder reads
the symbol and stays in step. -/
theorem encode_step (hs : Settled e.low e.high) (hm : m.Ok) (h : e.output.Holds bits) (a : Byte) :
    ∃ bits', (RangeEncoder.encode (e, m) a).1.output.Holds bits' ∧
      Settled (RangeEncoder.encode (e, m) a).1.low (RangeEncoder.encode (e, m) a).1.high ∧
      (∀ data, (RangeEncoder.encode (e, m) a).1.depth bits' + codeBits (m.update a)
        (RangeEncoder.encode (e, m) a).1.low (RangeEncoder.encode (e, m) a).1.high data =
          e.depth bits + codeBits m e.low e.high (a :: data)) ∧
      ∀ B, (RangeEncoder.encode (e, m) a).1.Contains B bits' → e.Contains B bits ∧
        ∀ code d, Carries code B → RangeDecoder.Tracks B e bits d →
          ∃ d', RangeDecoder.round code d m = .ok (a, d', m.update a) ∧
            RangeDecoder.Tracks B (RangeEncoder.encode (e, m) a).1 bits' d' := by
  set inner := narrow e.low e.high (m.interval a).1 (m.interval a).2 m.total with hinner
  set e₁ : RangeEncoder := { e with low := inner.1, high := inner.2 } with he₁
  obtain ⟨hlow, horder, hhigh⟩ := narrow_within hs hm a
  rw [← hinner] at hlow horder hhigh
  have hlt : e₁.high < 2 ^ 32 := lt_of_le_of_lt hhigh hs.high_lt
  have hsame : (RangeEncoder.encode (e, m) a).1 = e₁.renormalize 32 := rfl
  obtain ⟨bits', hholds, hdepth, hlow', hhigh', hsync⟩ :
      ∃ bits', (e₁.renormalize 32).output.Holds bits' ∧ _ := RangeDecoder.renormalize_tracks horder hlt h
  rw [hsame]
  refine ⟨bits', hholds, ?_, fun data => ?_, fun B hin' => ?_⟩
  · rw [hlow', hhigh']
    exact (rounds_settled horder hlt).1
  · have hcode : codeBits m e.low e.high (a :: data) = (renormRounds 32 e₁.low e₁.high).1 +
        codeBits (m.update a) (renormRounds 32 e₁.low e₁.high).2.1 (renormRounds 32 e₁.low e₁.high).2.2 data := rfl
    have hkeep : e₁.depth bits = e.depth bits := rfl
    rw [hlow', hhigh', hdepth, hcode]
    omega
  · -- the number that the bits name lies in the interval of the symbol
    have hin : e₁.Contains B bits := (hsync B).1.1 hin'
    have h₁ : e₁.low + e.offset bits ≤ front B (32 + e.depth bits) := hin.1
    have h₂ : front B (32 + e.depth bits) < e₁.high + 1 + e.offset bits := hin.2
    have h₃ : e.low ≤ e₁.low := hlow
    have h₄ : e₁.high ≤ e.high := hhigh
    refine ⟨by constructor <;> omega, fun code d hcarries htracks => ?_⟩
    have hcode := htracks.code_eq
    have hlowCode : e₁.low ≤ d.code := by omega
    have hhighCode : d.code ≤ e₁.high := by omega
    -- the decoder sees a code in the same interval, so it reads the same symbol
    have hsymbol := symbol_of_code hs hm a hlowCode hhighCode
    have htracks₁ : RangeDecoder.Tracks B e₁ bits { d with low := inner.1, high := inner.2 } :=
      ⟨rfl, rfl, htracks.bitOffset_eq, htracks.code_eq⟩
    refine ⟨_, ?_, (hsync B).2 code _ hcarries hin htracks₁⟩
    unfold RangeDecoder.round
    dsimp only
    rw [htracks.low_eq, htracks.high_eq, hsymbol, Exn.ok_bind]
    rfl

/-- Where the two sides stand after the first `k` symbols. -/
structure InStep (data code : Bytes) (e : RangeEncoder) (m : RangeModel) (d : RangeDecoder) (k : ℕ) : Prop where
  settled : Settled ((data.take k).foldl RangeEncoder.encode (e, m)).1.low
    ((data.take k).foldl RangeEncoder.encode (e, m)).1.high
  model_ok : ((data.take k).foldl RangeEncoder.encode (e, m)).2.Ok
  reads : ∃ d', RangeDecoder.rounds code k d m =
      .ok (data.take k, d', ((data.take k).foldl RangeEncoder.encode (e, m)).2) ∧
    d'.low = ((data.take k).foldl RangeEncoder.encode (e, m)).1.low ∧
    d'.high = ((data.take k).foldl RangeEncoder.encode (e, m)).1.high

/-- **The data are read back.** The code of some data names a number within the registers it
started from, whatever bits stand behind it, and a decoder in step with the encoder stays so
over all symbols. -/
theorem encode_rounds : ∀ (data : Bytes) {e : RangeEncoder} {m : RangeModel} {bits : List Bool},
    Settled e.low e.high → m.Ok → e.output.Holds bits →
    ∃ B, (data.foldl RangeEncoder.encode (e, m)).1.close.output.Holds B ∧
      B.length = e.depth bits + codeBits m e.low e.high data + 2 ∧
      ∀ more, e.Contains (B ++ more) bits ∧
        ∀ code d, Carries code (B ++ more) → RangeDecoder.Tracks (B ++ more) e bits d →
          ∀ k ≤ data.length, InStep data code e m d k
  | [], e, m, bits, hs, hm, h => by
    obtain ⟨B, hholds, hlen, hin⟩ := close_contains hs h
    refine ⟨B, hholds, hlen, fun more => ⟨hin more, fun code d _ htracks k hk => ?_⟩⟩
    rw [Nat.le_zero.1 hk]
    exact ⟨hs, hm, d, rfl, htracks.low_eq, htracks.high_eq⟩
  | a :: data, e, m, bits, hs, hm, h => by
    obtain ⟨bits₂, hholds₂, hsettled, hdepth, hsync⟩ := encode_step hs hm h a
    obtain ⟨B, hholds, hlen, hrest⟩ := encode_rounds data hsettled (RangeModel.update_ok hm a) hholds₂
    refine ⟨B, hholds, ?_, fun more => ?_⟩
    · have hbits := hdepth data
      omega
    · obtain ⟨hin₂, hread⟩ := hrest more
      obtain ⟨hin, hround⟩ := hsync _ hin₂
      refine ⟨hin, fun code d hcarries htracks k hk => ?_⟩
      obtain ⟨d₁, hfirst, htracks₁⟩ := hround code d hcarries htracks
      cases k with
      | zero => exact ⟨hs, hm, d, rfl, htracks.low_eq, htracks.high_eq⟩
      | succ k =>
        have hstep := hread code d₁ hcarries htracks₁ k (Nat.le_of_succ_le_succ hk)
        obtain ⟨d', hrounds, hlow, hhigh⟩ := hstep.reads
        refine ⟨hstep.settled, hstep.model_ok, d', ?_, hlow, hhigh⟩
        unfold RangeDecoder.rounds
        rw [hfirst, Exn.ok_bind]
        dsimp only
        rw [hrounds, Exn.ok_bind]
        rfl

end Run

/-- The length of the code of some data, but for the two bits that end it. -/
def codeLength (data : Bytes) : ℕ := codeBits .init 0 (rangeCodeFull - 1) data

theorem foldl_readBit {code : Bytes} {B : List Bool} (h : Carries code B) (n : ℕ) :
    (List.range n).foldl (fun code' i => (code' <<< 1) ||| readBit code i) 0 = front B n := by
  induction n with
  | zero => rfl
  | succ n ih =>
    rw [List.range_succ, List.foldl_append, ih, List.foldl_cons, List.foldl_nil, h, shiftLeft_or_bit]
    rfl

/-- A decoder that has read its first bits is in step with an encoder that has written none. -/
theorem init_tracks {code : Bytes} {B : List Bool} (h : Carries code B) :
    RangeDecoder.Tracks B .init [] (.init code) := by
  refine ⟨rfl, rfl, rfl, ?_⟩
  show (List.range 32).foldl (fun code' i => (code' <<< 1) ||| readBit code i) 0 + 0 = front B 32
  rw [foldl_readBit h, Nat.add_zero]

/-- **The code of some data**: with any bytes behind it, the two sides keep in step over all
symbols. -/
theorem rangeEncode_inStep {data : Bytes} (hlen : data.length ≤ maxTemplateCompressedBytes) :
    ∃ code, rangeEncode data = .ok code ∧ code.length = (codeLength data + 9) / 8 ∧
      ∀ tail, ∀ k ≤ data.length, InStep data (code ++ tail) .init .init (.init (code ++ tail)) k := by
  obtain ⟨B, hholds, hB, hread⟩ : ∃ B,
      (data.foldl RangeEncoder.encode (RangeEncoder.init, RangeModel.init)).1.close.output.Holds B ∧ _ :=
    encode_rounds _ init_settled RangeModel.init_ok BitWriter.init_holds
  have hbits : B.length = codeLength data + 2 := by
    rw [hB]
    show 0 + codeLength data + 2 = _
    omega
  refine ⟨pack B, ?_, by rw [length_pack, hbits], fun tail k hk => ?_⟩
  · unfold rangeEncode requireMaxLen
    rw [Exn.ensure_of _ hlen, Exn.ok_bind, BitWriter.finish_eq hholds]
    rfl
  · obtain ⟨more, hcarries⟩ := append_carries B tail
    exact (hread more).2 _ _ hcarries (init_tracks hcarries) k hk

/-- Sides that keep in step to the end have read all data. -/
theorem InStep.decode_eq {data code : Bytes} {d : RangeDecoder} {e : RangeEncoder} {m : RangeModel}
    (h : InStep data code e m d data.length) : RangeDecoder.decode code data.length d m = .ok data := by
  obtain ⟨d', hrounds, -⟩ := h.reads
  rw [RangeDecoder.decode_eq_rounds, hrounds, List.take_length]
  rfl

/-- **The range coder reads back what it wrote**, whatever the data; the code has as many
bytes as `codeLength` says. -/
theorem rangeDecode_rangeEncode {data : Bytes} (hlen : data.length ≤ maxTemplateCompressedBytes) :
    ∃ code, rangeEncode data = .ok code ∧ code.length = (codeLength data + 9) / 8 ∧
      (code.length ≤ maxTemplateCompressedBytes → rangeDecode code data.length = .ok data) := by
  obtain ⟨code, hencode, hcode, hstep⟩ := rangeEncode_inStep hlen
  refine ⟨code, hencode, hcode, fun hfits => ?_⟩
  have hdecode := (hstep [] _ le_rfl).decode_eq
  rw [List.append_nil] at hdecode
  unfold rangeDecode requireMaxLen requireUint
  rw [Exn.ensure_of _ hfits, Exn.ok_bind, Exn.ensure_of _ hlen, Exn.ok_bind]
  split
  · rename_i hempty
    rw [List.eq_nil_of_length_eq_zero hempty]
    rfl
  · rw [Exn.ensure_of _ (List.ne_nil_of_length_pos (by omega)), Exn.ok_bind]
    exact hdecode

/-- Between two symbols every symbol has a part of the interval of its own. -/
theorem share_nonempty {m : RangeModel} (hs : Settled low high) (hm : m.Ok) (a : Byte) :
    (high - low + 1) * (m.interval a).1 / m.total < (high - low + 1) * (m.interval a).2 / m.total := by
  obtain ⟨hshare, hle⟩ := RangeModel.interval_lt hm a
  have hlt := hm.total_lt
  have hwide := hs.wide
  exact share_lt (by omega) (by omega) hshare

/-- **The adaptive range coder.** Data whose code is admitted are read back. Before every
symbol the two sides have the same registers and the same model, the registers span more than
a quarter of their range and every symbol has a part of it; and whatever bytes stand behind
the code, the same symbols are read. -/
theorem rangeCoder_roundTrip {data : Bytes} (hlen : data.length ≤ maxTemplateCompressedBytes) :
    ∃ code, rangeEncode data = .ok code ∧
      (code.length ≤ maxTemplateCompressedBytes → rangeDecode code data.length = .ok data) ∧
      (∀ k ≤ data.length, ∃ e m d, (data.take k).foldl RangeEncoder.encode (.init, .init) = (e, m) ∧
        RangeDecoder.rounds code k (.init code) .init = .ok (data.take k, d, m) ∧ d.low = e.low ∧ d.high = e.high ∧
        e.low ≤ e.high ∧ rangeCodeQuarter < e.high - e.low + 1 ∧
        ∀ a, (e.high - e.low + 1) * (m.interval a).1 / m.total < (e.high - e.low + 1) * (m.interval a).2 / m.total) ∧
      ∀ tail, RangeDecoder.decode (code ++ tail) data.length (.init (code ++ tail)) .init = .ok data := by
  obtain ⟨code, hencode, -, hstep⟩ := rangeEncode_inStep hlen
  obtain ⟨code', hencode', -, hdecode⟩ := rangeDecode_rangeEncode hlen
  obtain rfl : code' = code := Except.ok.inj (hencode'.symm.trans hencode)
  refine ⟨code', hencode, hdecode, fun k hk => ?_, fun tail => (hstep tail _ le_rfl).decode_eq⟩
  have hkeep := hstep [] k hk
  rw [List.append_nil] at hkeep
  obtain ⟨d, hrounds, hlow, hhigh⟩ := hkeep.reads
  exact ⟨_, _, d, rfl, hrounds, hlow, hhigh, hkeep.settled.le, hkeep.settled.wide,
    share_nonempty hkeep.settled hkeep.model_ok⟩

/-- Four bytes, two of them alike. -/
theorem rangeCoder_roundTrip_four : ([7, 255, 7, 0] : Bytes).length ≤ maxTemplateCompressedBytes ∧
    ∃ code, rangeEncode [7, 255, 7, 0] = .ok code ∧
      (code.length ≤ maxTemplateCompressedBytes → rangeDecode code 4 = .ok [7, 255, 7, 0]) := by
  have hlen : ([7, 255, 7, 0] : Bytes).length ≤ maxTemplateCompressedBytes := by decide
  obtain ⟨code, hencode, hdecode, -⟩ := rangeCoder_roundTrip hlen
  exact ⟨hlen, code, hencode, hdecode⟩

/-! ## How long a code is -/

/-- The product of `f * K + 1` over `n` consecutive frequencies, for `K = 2 ^ 15`. -/
def ascend : ℕ → ℕ → ℕ
  | _, 0 => 1
  | f, n + 1 => (f * 2 ^ 15 + 1) * ascend (f + 1) n

/-- The frequency of a symbol. -/
def RangeModel.freq (m : RangeModel) (a : Byte) : ℕ := m.frequencies.getD a.val 0

theorem RangeModel.interval_width (m : RangeModel) (a : Byte) : (m.interval a).2 - (m.interval a).1 = m.freq a :=
  Nat.add_sub_cancel_left _ _

/-- Before the frequencies are halved, an update counts the symbol. -/
theorem RangeModel.update_small {m : RangeModel} (hm : m.Ok) (hsmall : m.total + 1 < 2 ^ 15) (a : Byte) :
    (m.update a).total = m.total + 1 ∧ ∀ b, (m.update a).freq b = m.freq b + if b = a then 1 else 0 := by
  have hno : ¬rangeModelMaxTotal ≤ m.total + 1 := by
    unfold rangeModelMaxTotal
    omega
  unfold update freq
  dsimp only
  rw [if_neg hno]
  refine ⟨rfl, fun b => ?_⟩
  have hb : b.val < m.frequencies.length := by
    rw [hm.length_eq]
    exact b.isLt
  dsimp only
  rw [List.getD_eq_getElem?_getD, List.getElem?_modify, List.getElem?_eq_getElem hb, List.getD_eq_getElem?_getD,
    List.getElem?_eq_getElem hb]
  by_cases hab : b = a
  · subst hab
    simp
  · have hne : ¬a.val = b.val := fun h => hab (Fin.ext h.symm)
    simp [hab, hne]

/-- One symbol narrows the registers to about its share. -/
theorem narrow_span {m : RangeModel} (hs : Settled low high) (hm : m.Ok) (a : Byte) :
    ((narrow low high (m.interval a).1 (m.interval a).2 m.total).2 -
        (narrow low high (m.interval a).1 (m.interval a).2 m.total).1 + 1) * (m.total * 2 ^ 15) ≤
      (high - low + 1) * (m.freq a * 2 ^ 15 + 1) := by
  obtain ⟨hshare, hshareLe⟩ := RangeModel.interval_lt hm a
  have htotal : 0 < m.total := by omega
  have hwide := hs.wide
  have hlt := hm.total_lt
  have hpos : (high - low + 1) * (m.interval a).1 / m.total < (high - low + 1) * (m.interval a).2 / m.total :=
    share_lt htotal (by omega) hshare
  have hwidth : ((high - low + 1) * (m.interval a).2 / m.total - (high - low + 1) * (m.interval a).1 / m.total) * m.total ≤
      (high - low + 1) * m.freq a + m.total := by
    rw [← RangeModel.interval_width]
    exact share_width_le hshare.le
  have hspan : (narrow low high (m.interval a).1 (m.interval a).2 m.total).2 -
      (narrow low high (m.interval a).1 (m.interval a).2 m.total).1 + 1 =
        (high - low + 1) * (m.interval a).2 / m.total - (high - low + 1) * (m.interval a).1 / m.total := by
    unfold narrow
    dsimp only
    generalize (high - low + 1) * (m.interval a).1 / m.total = x at hpos
    generalize (high - low + 1) * (m.interval a).2 / m.total = y at hpos
    omega
  rw [hspan]
  calc ((high - low + 1) * (m.interval a).2 / m.total - (high - low + 1) * (m.interval a).1 / m.total) * (m.total * 2 ^ 15)
      = ((high - low + 1) * (m.interval a).2 / m.total - (high - low + 1) * (m.interval a).1 / m.total) * m.total * 2 ^ 15 := by
        ring
    _ ≤ ((high - low + 1) * m.freq a + m.total) * 2 ^ 15 := Nat.mul_le_mul_right _ hwidth
    _ = (high - low + 1) * (m.freq a * 2 ^ 15) + m.total * 2 ^ 15 := by ring
    _ ≤ (high - low + 1) * (m.freq a * 2 ^ 15) + (high - low + 1) := by omega
    _ = (high - low + 1) * (m.freq a * 2 ^ 15 + 1) := by ring

/-- Counting one symbol more moves its factor to the front. -/
theorem prod_ascend_cons (f : Byte → ℕ) (a : Byte) (data : Bytes) :
    ∏ b, ascend (f b) ((a :: data).count b) =
      (f a * 2 ^ 15 + 1) * ∏ b, ascend (f b + if b = a then 1 else 0) (data.count b) := by
  have hfactor : ∀ b, ascend (f b) ((a :: data).count b) =
      (if b = a then f a * 2 ^ 15 + 1 else 1) * ascend (f b + if b = a then 1 else 0) (data.count b) := by
    intro b
    by_cases hab : b = a
    · subst hab
      rw [List.count_cons_self, if_pos rfl, if_pos rfl]
      rfl
    · rw [List.count_cons_of_ne (Ne.symm hab), if_neg hab, if_neg hab, Nat.one_mul, Nat.add_zero]
  rw [Finset.prod_congr rfl fun b _ => hfactor b, Finset.prod_mul_distrib, Finset.prod_ite_eq']
  simp

/-- **A code is not shorter than what the frequencies say.** With `f` the frequency of a
symbol when it comes and `t` the total then, the product of all `t / f` is at most
`2 ^ codeBits`, up to the rounding of the registers. -/
theorem codeBits_ge : ∀ {data : Bytes} {m : RangeModel} {low high : ℕ}, Settled low high → m.Ok →
    m.total + data.length < 2 ^ 15 →
    2 ^ 30 * (2 ^ 15) ^ data.length * m.total.ascFactorial data.length ≤
      2 ^ codeBits m low high data * (high - low + 1) * ∏ b, ascend (m.freq b) (data.count b)
  | [], m, low, high, hs, hm, _ => by
    have hwide := hs.wide
    simp [codeBits, ascend]
    omega
  | a :: data, m, low, high, hs, hm, hsmall => by
    rw [List.length_cons] at hsmall ⊢
    obtain ⟨htotal, hfreq⟩ := RangeModel.update_small hm (by omega) a
    obtain ⟨hlow, horder, hhigh⟩ := narrow_within hs hm a
    have hspan := narrow_span hs hm a
    set inner := narrow low high (m.interval a).1 (m.interval a).2 m.total with hinner
    obtain ⟨hsettled, hrounds⟩ := rounds_settled horder (lt_of_le_of_lt hhigh hs.high_lt)
    have hcode : codeBits m low high (a :: data) = (renormRounds 32 inner.1 inner.2).1 +
        codeBits (m.update a) (renormRounds 32 inner.1 inner.2).2.1 (renormRounds 32 inner.1 inner.2).2.2 data := rfl
    have hrest : 2 ^ 30 * (2 ^ 15) ^ data.length * (m.update a).total.ascFactorial data.length ≤ _ :=
      codeBits_ge hsettled (RangeModel.update_ok hm a) (by rw [htotal]; omega)
    rw [hrounds, htotal] at hrest
    simp only [hfreq] at hrest
    set rounds := (renormRounds 32 inner.1 inner.2).1
    set rest := codeBits (m.update a) (renormRounds 32 inner.1 inner.2).2.1 (renormRounds 32 inner.1 inner.2).2.2 data
    set tail := ∏ b, ascend (m.freq b + if b = a then 1 else 0) (data.count b)
    -- the totals rise by one with each symbol
    have hrise : m.total.ascFactorial (data.length + 1) = m.total * (m.total + 1).ascFactorial data.length := by
      rw [Nat.succ_ascFactorial, Nat.ascFactorial_succ]
    rw [hcode, prod_ascend_cons, hrise]
    calc 2 ^ 30 * (2 ^ 15) ^ (data.length + 1) * (m.total * (m.total + 1).ascFactorial data.length)
        = (2 ^ 30 * (2 ^ 15) ^ data.length * (m.total + 1).ascFactorial data.length) * (m.total * 2 ^ 15) := by ring
      _ ≤ (2 ^ rest * (2 ^ rounds * (inner.2 - inner.1 + 1)) * tail) * (m.total * 2 ^ 15) :=
          Nat.mul_le_mul_right _ hrest
      _ = 2 ^ rest * 2 ^ rounds * tail * ((inner.2 - inner.1 + 1) * (m.total * 2 ^ 15)) := by ring
      _ ≤ 2 ^ rest * 2 ^ rounds * tail * ((high - low + 1) * (m.freq a * 2 ^ 15 + 1)) := Nat.mul_le_mul_left _ hspan
      _ = 2 ^ (rounds + rest) * (high - low + 1) * ((m.freq a * 2 ^ 15 + 1) * tail) := by
          rw [pow_add]
          ring

end TemplateCodec

end TensorPow
