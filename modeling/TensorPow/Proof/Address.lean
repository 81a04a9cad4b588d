import TensorPow.Coder.Regroup
import TensorPow.Coder.Remainder
import TensorPow.Exn.Basic
import TensorPow.Spec.Address

/-!
# Addresses are in bijection with hashes

* `convertStep_keeps`: regrouping keeps the bits; `convertbits_pad`, `convertbits_strict` say
  what is left over at the end.
* `polymodStep_eq`, `shift_linear`: the checksum is linear.
* `createChecksum_iff`: there is exactly one checksum.
* `address_bijective`: an address for every hash, and no other.
* `typos_detected`: two addresses differ in at least four places.
-/

namespace TensorPow.Address

open Wire Exn Coder

/-! ## Regrouping -/

theorem one_shiftLeft_sub (n : ℕ) : (1 <<< n) - 1 = 2 ^ n - 1 := by rw [Nat.one_shiftLeft]

theorem bitsOf_mask (w v : ℕ) : bitsOf w (v &&& ((1 <<< w) - 1)) = bitsOf w v := by
  apply bitsOf_congr
  intro i hi
  rw [one_shiftLeft_sub, Nat.testBit_and, Nat.testBit_two_pow_sub_one]
  simp [hi]

/-- What the inner loop emits, with what it leaves, are the bits it started with. -/
theorem emitGroups_bits (accumulator : ℕ) {toBits fuel bits : ℕ} (hto : 0 < toBits) (hfuel : bits ≤ fuel) :
    ((emitGroups accumulator toBits fuel bits).1.flatMap (bitsOf toBits) ++
        bitsOf (emitGroups accumulator toBits fuel bits).2 accumulator = bitsOf bits accumulator) ∧
      (emitGroups accumulator toBits fuel bits).2 < toBits ∧
      ∀ g ∈ (emitGroups accumulator toBits fuel bits).1, g < 2 ^ toBits := by
  induction fuel generalizing bits with
  | zero =>
    have hzero : bits = 0 := by omega
    subst hzero
    exact ⟨rfl, hto, fun g hg => by cases hg⟩
  | succ fuel ih =>
    unfold emitGroups
    by_cases hle : toBits ≤ bits
    · rw [if_pos hle]
      obtain ⟨hbits, hlt, hgroups⟩ := ih (by omega : bits - toBits ≤ fuel)
      refine ⟨?_, hlt, ?_⟩
      · have hsum : bits = toBits + (bits - toBits) := by omega
        dsimp only
        rw [List.flatMap_cons, List.append_assoc, hbits, bitsOf_mask]
        conv_rhs => rw [hsum, bitsOf_add]
      · intro g hg
        rcases List.mem_cons.1 hg with rfl | hg
        · rw [one_shiftLeft_sub]
          exact Nat.and_lt_two_pow _ (by have := Nat.two_pow_pos toBits; omega)
        · exact hgroups g hg
    · rw [if_neg hle]
      exact ⟨rfl, by omega, fun g hg => by cases hg⟩

section Regroup

variable {fromBits toBits : ℕ}

/-- The bits read so far are those written and those held back. -/
structure Holds (fromBits toBits : ℕ) (data : List ℕ) (s : BitState) : Prop where
  bits : s.output.flatMap (bitsOf toBits) ++ bitsOf s.bits s.accumulator = data.flatMap (bitsOf fromBits)
  few : s.bits < toBits
  groups : ∀ g ∈ s.output, g < 2 ^ toBits

/-- The next group goes below the bits that are held back. -/
theorem bitsOf_accumulate {accumulator value bits : ℕ} (hvalue : value < 2 ^ fromBits) (hbits : bits < toBits) :
    bitsOf (bits + fromBits) (((accumulator <<< fromBits) ||| value) &&& ((1 <<< (fromBits + toBits - 1)) - 1)) =
      bitsOf bits accumulator ++ bitsOf fromBits value := by
  have hmask : bitsOf (bits + fromBits)
      (((accumulator <<< fromBits) ||| value) &&& ((1 <<< (fromBits + toBits - 1)) - 1)) =
      bitsOf (bits + fromBits) ((accumulator <<< fromBits) ||| value) := by
    apply bitsOf_congr
    intro i hi
    have hlt : i < fromBits + toBits - 1 := by omega
    rw [one_shiftLeft_sub, Nat.testBit_and, Nat.testBit_two_pow_sub_one]
    simp [hlt]
  rw [hmask, bitsOf_add]
  congr 1
  · apply bitsOf_congr
    intro i _
    have hhigh : value.testBit (fromBits + i) = false := by
      apply Nat.testBit_lt_two_pow
      exact lt_of_lt_of_le hvalue (Nat.pow_le_pow_right (by decide) (by omega))
    rw [Nat.testBit_shiftRight, Nat.testBit_or, hhigh, Nat.testBit_shiftLeft]
    simp
  · apply bitsOf_congr
    intro i hi
    rw [Nat.testBit_or, Nat.testBit_shiftLeft]
    simp [show ¬fromBits ≤ i by omega]

theorem shiftRight_eq_zero_iff {value n : ℕ} : value >>> n = 0 ↔ value < 2 ^ n := by
  rw [Nat.shiftRight_eq_div_pow, Nat.div_eq_zero_iff]
  have := Nat.two_pow_pos n
  omega

theorem convertStep_keeps {data : List ℕ} {s : BitState} {value : ℕ} (h : Holds fromBits toBits data s)
    (hvalue : value < 2 ^ fromBits) :
    ∃ s', convertStep fromBits toBits s value = .ok s' ∧ Holds fromBits toBits (data ++ [value]) s' := by
  have hto : 0 < toBits := lt_of_le_of_lt (Nat.zero_le _) h.few
  set accumulator := ((s.accumulator <<< fromBits) ||| value) &&& ((1 <<< (fromBits + toBits - 1)) - 1) with haccumulator
  obtain ⟨hbits, hfew, hgroups⟩ := emitGroups_bits accumulator hto (le_refl (s.bits + fromBits))
  refine ⟨⟨accumulator, (emitGroups accumulator toBits (s.bits + fromBits) (s.bits + fromBits)).2,
    s.output ++ (emitGroups accumulator toBits (s.bits + fromBits) (s.bits + fromBits)).1⟩, ?_, ?_⟩
  · unfold convertStep require
    rw [ensure_of _ (shiftRight_eq_zero_iff.2 hvalue)]
    rfl
  · refine ⟨?_, hfew, ?_⟩
    · dsimp only
      rw [List.flatMap_append, List.append_assoc, hbits, haccumulator, bitsOf_accumulate hvalue h.few,
        ← List.append_assoc, h.bits, List.flatMap_append, List.flatMap_singleton]
    · intro g hg
      rcases List.mem_append.1 hg with hg | hg
      · exact h.groups g hg
      · exact hgroups g hg

/-- **The loop keeps the bits**, as long as every value has at most `fromBits` of them. -/
theorem convert_loop {data : List ℕ} (hto : 0 < toBits) (hdata : ∀ v ∈ data, v < 2 ^ fromBits) :
    ∃ s, data.foldlM (convertStep fromBits toBits) ⟨0, 0, []⟩ = .ok s ∧ Holds fromBits toBits data s := by
  induction data using List.reverseRecOn with
  | nil => exact ⟨_, rfl, ⟨rfl, hto, fun g hg => by cases hg⟩⟩
  | append_singleton data v ih =>
    obtain ⟨s, hs, hholds⟩ := ih fun x hx => hdata x (List.mem_append_left _ hx)
    obtain ⟨s', hs', hholds'⟩ := convertStep_keeps hholds (hdata v (by simp))
    exact ⟨s', foldlM_append_ok.2 ⟨s, hs, foldlM_cons_ok.2 ⟨s', hs', rfl⟩⟩, hholds'⟩

theorem convert_values {data : List ℕ} {s₀ s : BitState} (h : data.foldlM (convertStep fromBits toBits) s₀ = .ok s) :
    ∀ v ∈ data, v < 2 ^ fromBits := by
  induction data generalizing s₀ with
  | nil =>
    intro v hv
    cases hv
  | cons x data ih =>
    obtain ⟨s₁, hstep, hrest⟩ := foldlM_cons_ok.1 h
    intro v hv
    rcases List.mem_cons.1 hv with rfl | hv
    · obtain ⟨_, hx, -⟩ := bind_ok.1 hstep
      exact shiftRight_eq_zero_iff.1 (ensure_ok.1 hx)
    · exact ih hrest v hv

/-- The last group: the bits that are held back, and zeros. -/
theorem bitsOf_last (accumulator : ℕ) {bits : ℕ} (h : bits < toBits) :
    bitsOf toBits ((accumulator <<< (toBits - bits)) &&& ((1 <<< toBits) - 1)) =
      bitsOf bits accumulator ++ List.replicate (toBits - bits) false := by
  obtain ⟨k, rfl⟩ : ∃ k, toBits = bits + k := ⟨toBits - bits, by omega⟩
  rw [bitsOf_mask, bitsOf_add, Nat.add_sub_cancel_left, Nat.shiftLeft_shiftRight, ← bitsOf_zero]
  congr 1
  apply bitsOf_congr
  intro i hi
  rw [Nat.testBit_shiftLeft, Nat.zero_testBit]
  simp [show ¬k ≤ i by omega]

theorem last_lt (accumulator bits : ℕ) : (accumulator <<< (toBits - bits)) &&& ((1 <<< toBits) - 1) < 2 ^ toBits := by
  rw [one_shiftLeft_sub]
  exact Nat.and_lt_two_pow _ (by have := Nat.two_pow_pos toBits; omega)

/-- With padding: the bits, and fewer zeros than a group has bits. -/
theorem convertbits_pad {data : List ℕ} (hto : 0 < toBits) (hdata : ∀ v ∈ data, v < 2 ^ fromBits) :
    ∃ out, convertbits data fromBits toBits true = .ok out ∧ (∀ g ∈ out, g < 2 ^ toBits) ∧
      ∃ k < toBits, out.flatMap (bitsOf toBits) = data.flatMap (bitsOf fromBits) ++ List.replicate k false := by
  obtain ⟨s, hs, hholds⟩ := convert_loop hto hdata
  have hbits := hholds.bits
  unfold convertbits
  rw [hs, ok_bind]
  by_cases hzero : s.bits = 0
  · refine ⟨s.output, by simp [hzero], hholds.groups, 0, hto, ?_⟩
    rw [hzero] at hbits
    simpa [bitsOf] using hbits
  · refine ⟨s.output ++ [(s.accumulator <<< (toBits - s.bits)) &&& ((1 <<< toBits) - 1)], by simp [hzero], ?_,
      toBits - s.bits, by omega, ?_⟩
    · intro g hg
      rcases List.mem_append.1 hg with hg | hg
      · exact hholds.groups g hg
      · rw [List.mem_singleton.1 hg]
        exact last_lt _ _
    · rw [List.flatMap_append, List.flatMap_singleton, bitsOf_last _ hholds.few, ← List.append_assoc, hbits]

theorem last_eq_zero_iff {accumulator bits : ℕ} (h : bits < toBits) :
    (accumulator <<< (toBits - bits)) &&& ((1 <<< toBits) - 1) = 0 ↔
      bitsOf bits accumulator = List.replicate bits false := by
  have hlast := bitsOf_last accumulator h
  have hsum : bits + (toBits - bits) = toBits := by omega
  constructor
  · intro hzero
    rw [hzero, bitsOf_zero, ← hsum, ← List.replicate_append_replicate, Nat.add_sub_cancel_left] at hlast
    exact (List.append_inj hlast (by simp)).1.symm
  · intro hzeros
    apply bitsOf_inj (last_lt _ _) (Nat.two_pow_pos _)
    rw [hlast, hzeros, bitsOf_zero, List.replicate_append_replicate, hsum]

/-- **Without padding**: the bits have to be those of full groups and a few zeros. -/
theorem convertbits_strict {data out : List ℕ} (hto : 0 < toBits) :
    convertbits data fromBits toBits false = .ok out ↔
      (∀ v ∈ data, v < 2 ^ fromBits) ∧ (∀ g ∈ out, g < 2 ^ toBits) ∧
        ∃ k, k < fromBits ∧ k < toBits ∧
          data.flatMap (bitsOf fromBits) = out.flatMap (bitsOf toBits) ++ List.replicate k false := by
  unfold convertbits require
  constructor
  · intro h
    obtain ⟨s, hs, h⟩ := bind_ok.1 h
    have hdata := convert_values hs
    obtain ⟨s', hs', hholds⟩ := convert_loop hto hdata
    rw [hs, Except.ok.injEq] at hs'
    subst hs'
    simp only [Bool.false_eq_true, if_false, bind_ok, ensure_ok, pure_ok] at h
    obtain ⟨_, hfew, rfl⟩ := h
    -- the bits that are left over are too few for a group, and zero
    rw [not_or, not_le, not_not] at hfew
    refine ⟨hdata, hholds.groups, s.bits, hfew.1, hholds.few, ?_⟩
    rw [← hholds.bits, (last_eq_zero_iff hholds.few).1 hfew.2]
  · rintro ⟨hdata, hout, k, hk, hk', hbits⟩
    obtain ⟨s, hs, hholds⟩ := convert_loop hto hdata
    rw [← hholds.bits] at hbits
    obtain ⟨rfl, hrest⟩ := flatMap_bitsOf_append_inj hholds.groups hout (by simpa using hholds.few) (by simpa using hk')
      hbits
    have hcount : s.bits = k := by simpa using congrArg List.length hrest
    rw [← hcount] at hrest hk
    have hlast := (last_eq_zero_iff hholds.few).2 hrest
    rw [hs, ok_bind]
    simp only [Bool.false_eq_true, if_false]
    rw [ensure_of _ (by rw [not_or, not_le, not_not]; exact ⟨hk, hlast⟩)]
    rfl

end Regroup

/-- Thirty-two bytes are 52 groups of five bits, the last of which has four zeros. -/
theorem groups_length {payload groups : List ℕ} (hlength : payload.length = hashLenBytes) {k : ℕ} (hk : k < 5)
    (h : groups.flatMap (bitsOf 5) = payload.flatMap (bitsOf 8) ++ List.replicate k false) :
    groups.length = 52 ∧ k = 4 := by
  have hcount := congrArg List.length h
  rw [length_flatMap_bitsOf, List.length_append, length_flatMap_bitsOf, List.length_replicate, hlength] at hcount
  unfold hashLenBytes at hcount
  omega

/-- **Thirty-two bytes become 52 groups, and these become the bytes.** -/
theorem convertbits_inverse {payload : List ℕ} (hlength : payload.length = hashLenBytes)
    (hpayload : ∀ v ∈ payload, v < 2 ^ 8) :
    ∃ groups, convertbits payload 8 5 true = .ok groups ∧ groups.length = 52 ∧ (∀ g ∈ groups, g < 2 ^ 5) ∧
      ∀ groups', convertbits groups' 5 8 false = .ok payload ↔ groups' = groups := by
  obtain ⟨groups, hgroups, hlt, k, hk, hbits⟩ := convertbits_pad (by decide : 0 < 5) hpayload
  obtain ⟨hcount, rfl⟩ := groups_length hlength hk hbits
  refine ⟨groups, hgroups, hcount, hlt, ?_⟩
  intro groups'
  rw [convertbits_strict (by decide)]
  constructor
  · rintro ⟨hlt', -, k, hk, -, hbits'⟩
    obtain ⟨hcount', rfl⟩ := groups_length hlength hk hbits'
    exact flatMap_bitsOf_inj hlt' hlt (by rw [hcount, hcount']) (by rw [hbits, hbits'])
  · rintro rfl
    exact ⟨hlt, hpayload, 4, by decide, by decide, hbits⟩

/-! ## The checksum -/

/-- A round of `_polymod` without a value. -/
def shift (checksum : ℕ) : ℕ := polymodStep checksum 0

/-- Selecting generators is linear, in the selecting bits and in the word. -/
theorem mix_xor (l : List (ℕ × ℕ)) (a b c d : ℕ) :
    l.foldl (fun checksum p => if ((a ^^^ b) >>> p.2) &&& 1 ≠ 0 then checksum ^^^ p.1 else checksum) (c ^^^ d) =
      l.foldl (fun checksum p => if (a >>> p.2) &&& 1 ≠ 0 then checksum ^^^ p.1 else checksum) c ^^^
        l.foldl (fun checksum p => if (b >>> p.2) &&& 1 ≠ 0 then checksum ^^^ p.1 else checksum) d := by
  induction l generalizing c d with
  | nil => rfl
  | cons p l ih =>
    rw [List.foldl_cons, List.foldl_cons, List.foldl_cons, ← ih]
    congr 1
    rw [Nat.shiftRight_xor_distrib, Nat.and_xor_distrib_right, Nat.and_one_is_mod, Nat.and_one_is_mod]
    have hcancel : (c ^^^ p.1) ^^^ (d ^^^ p.1) = c ^^^ d := by
      calc (c ^^^ p.1) ^^^ (d ^^^ p.1) = (c ^^^ d) ^^^ (p.1 ^^^ p.1) := by ac_rfl
        _ = c ^^^ d := by rw [Nat.xor_self, Nat.xor_zero]
    rcases Nat.mod_two_eq_zero_or_one (a >>> p.2) with ha | ha
    · rcases Nat.mod_two_eq_zero_or_one (b >>> p.2) with hb | hb
      · simp [ha, hb]
      · simp [ha, hb, Nat.xor_assoc]
    · rcases Nat.mod_two_eq_zero_or_one (b >>> p.2) with hb | hb
      · simp only [ha, hb]
        simp
        ac_rfl
      · simp [ha, hb, hcancel]

theorem polymodStep_xor (a b u v : ℕ) : polymodStep (a ^^^ b) (u ^^^ v) = polymodStep a u ^^^ polymodStep b v := by
  have hword : (((a ^^^ b) &&& 0x1FFFFFF) <<< 5) ^^^ (u ^^^ v) =
      (((a &&& 0x1FFFFFF) <<< 5) ^^^ u) ^^^ (((b &&& 0x1FFFFFF) <<< 5) ^^^ v) := by
    rw [Nat.and_xor_distrib_right, Nat.shiftLeft_xor_distrib]
    ac_rfl
  unfold polymodStep mixGenerators
  rw [hword, Nat.shiftRight_xor_distrib, mix_xor]

theorem shift_linear : Linear shift := by
  intro a b
  have hstep := polymodStep_xor a b 0 0
  rwa [Nat.xor_self] at hstep

theorem polymodStep_eq (c v : ℕ) : polymodStep c v = shift c ^^^ v := by
  have hstep := polymodStep_xor c 0 0 v
  have hzero : polymodStep 0 v = v := by
    have hfirst : ((0 &&& 0x1FFFFFF) <<< 5) ^^^ v = v := by simp
    unfold polymodStep mixGenerators
    rw [hfirst]
    simp [generators]
  rwa [Nat.xor_zero, Nat.zero_xor, hzero] at hstep

theorem polymod_eq (values : List ℕ) : polymod values = remainder shift 1 values := by
  have hstep : polymodStep = fun c v => shift c ^^^ v := by
    funext c v
    exact polymodStep_eq c v
  unfold polymod remainder
  rw [hstep]

/-- A word is its low 25 bits, moved up, and the generators of its top bits. -/
theorem shift_eq (c : ℕ) : shift c = ((c % 2 ^ 25) * 32) ^^^ mixGenerators (c >>> 25) 0 := by
  have hmix := mix_xor generators.zipIdx (c >>> 25) 0 0 ((c &&& 0x1FFFFFF) <<< 5)
  have hnone : generators.zipIdx.foldl (fun checksum p => if ((0 : ℕ) >>> p.2) &&& 1 ≠ 0 then checksum ^^^ p.1 else checksum)
      ((c &&& 0x1FFFFFF) <<< 5) = (c &&& 0x1FFFFFF) <<< 5 := by simp [generators]
  have hmask : c &&& 0x1FFFFFF = c % 2 ^ 25 := Nat.and_two_pow_sub_one_eq_mod c 25
  rw [Nat.xor_zero, Nat.zero_xor, hnone] at hmix
  unfold shift polymodStep mixGenerators
  rw [Nat.xor_zero, hmix, Nat.xor_comm, hmask, Nat.shiftLeft_eq]

theorem mix_lt (top : ℕ) : mixGenerators top 0 < 2 ^ 30 := by
  have hfold : ∀ (l : List (ℕ × ℕ)), (∀ p ∈ l, p.1 < 2 ^ 30) → ∀ c < 2 ^ 30,
      l.foldl (fun checksum p => if (top >>> p.2) &&& 1 ≠ 0 then checksum ^^^ p.1 else checksum) c < 2 ^ 30 := by
    intro l
    induction l with
    | nil =>
      intro _ c hc
      exact hc
    | cons p l ih =>
      intro hl c hc
      apply ih fun q hq => hl q (List.mem_cons_of_mem _ hq)
      dsimp only
      split
      · exact Nat.xor_lt_two_pow hc (hl p List.mem_cons_self)
      · exact hc
  exact hfold _ (by decide) 0 (by decide)

theorem shift_lt (c : ℕ) : shift c < 2 ^ 30 := by
  rw [shift_eq]
  have hlow := Nat.mod_lt c (by decide : 0 < 2 ^ 25)
  exact Nat.xor_lt_two_pow (by omega) (mix_lt _)

/-- The low five bits of the word tell which generators were added. -/
theorem mix_low : ∀ top < 32, mixGenerators top 0 % 2 ^ 5 = 0 → top = 0 := by decide

theorem shift_kernel {c : ℕ} (hc : c < 2 ^ 30) (h : shift c = 0) : c = 0 := by
  have htop : c >>> 25 < 32 := by
    rw [Nat.shiftRight_eq_div_pow]
    omega
  rw [shift_eq] at h
  have hlow := congrArg (fun n => n % 2 ^ 5) h
  rw [Nat.xor_mod_two_pow, show c % 2 ^ 25 * 32 % 2 ^ 5 = 0 by omega, Nat.zero_xor, Nat.zero_mod] at hlow
  have hzero := mix_low _ htop hlow
  rw [hzero, show mixGenerators 0 0 = 0 by decide, Nat.xor_zero] at h
  rw [Nat.shiftRight_eq_div_pow] at hzero
  omega

/-- A word below `2 ^ 25` is moved up, and the next value put below it. -/
theorem shift_small {c v : ℕ} (hc : c < 2 ^ 25) (hv : v < 32) : shift c ^^^ v = c * 32 + v := by
  have hzero : c >>> 25 = 0 := by
    rw [Nat.shiftRight_eq_div_pow]
    exact Nat.div_eq_of_lt hc
  rw [shift_eq, hzero, show mixGenerators 0 0 = 0 by decide, Nat.xor_zero, Nat.mod_eq_of_lt hc]
  have hdiv : (c * 32 ^^^ v) / 2 ^ 5 = c := by
    rw [Nat.xor_div_two_pow, Nat.div_eq_of_lt (by omega : v < 2 ^ 5), Nat.xor_zero]
    omega
  have hmod : (c * 32 ^^^ v) % 2 ^ 5 = v := by
    rw [Nat.xor_mod_two_pow, show c * 32 % 2 ^ 5 = 0 by omega, Nat.zero_xor]
    omega
  omega

/-- The six values of a word. -/
def digits (p : ℕ) : List ℕ :=
  (List.range checksumLength).map fun index => (p >>> (5 * (checksumLength - 1 - index))) &&& 31

theorem digits_eq (p : ℕ) : digits p = [p / 2 ^ 25 % 32, p / 2 ^ 20 % 32, p / 2 ^ 15 % 32, p / 2 ^ 10 % 32,
    p / 2 ^ 5 % 32, p % 32] := by
  have hmask : ∀ x, x &&& 31 = x % 32 := fun x => Nat.and_two_pow_sub_one_eq_mod x 5
  simp [digits, checksumLength, List.range_succ, hmask, Nat.shiftRight_eq_div_pow]

/-- The word of six values. -/
theorem word_eq {a b c d e f : ℕ} (ha : a < 32) (hb : b < 32) (hc : c < 32) (hd : d < 32) (he : e < 32) (hf : f < 32) :
    remainder shift 0 [a, b, c, d, e, f] = ((((a * 32 + b) * 32 + c) * 32 + d) * 32 + e) * 32 + f := by
  have hfold : remainder shift 0 [a, b, c, d, e, f] =
      shift (shift (shift (shift (shift (shift 0 ^^^ a) ^^^ b) ^^^ c) ^^^ d) ^^^ e) ^^^ f := rfl
  rw [hfold, shift_small (by decide) ha, Nat.zero_mul, Nat.zero_add, shift_small (by omega) hb,
    shift_small (by omega) hc, shift_small (by omega) hd, shift_small (by omega) he, shift_small (by omega) hf]

theorem word_digits {p : ℕ} (hp : p < 2 ^ 30) : remainder shift 0 (digits p) = p := by
  rw [digits_eq, word_eq (by omega) (by omega) (by omega) (by omega) (by omega) (by omega)]
  omega

theorem digits_word {ds : List ℕ} (hlength : ds.length = checksumLength) (hlt : ∀ v ∈ ds, v < 32) :
    digits (remainder shift 0 ds) = ds := by
  unfold checksumLength at hlength
  obtain ⟨a, b, c, d, e, f, rfl⟩ : ∃ a b c d e f, ds = [a, b, c, d, e, f] := by
    rcases ds with _ | ⟨a, _ | ⟨b, _ | ⟨c, _ | ⟨d, _ | ⟨e, _ | ⟨f, _ | ⟨g, ds⟩⟩⟩⟩⟩⟩⟩ <;> simp at hlength
    exact ⟨a, b, c, d, e, f, rfl⟩
  simp only [List.mem_cons, List.not_mem_nil, or_false, forall_eq_or_imp, forall_eq] at hlt
  obtain ⟨ha, hb, hc, hd, he, hf⟩ := hlt
  rw [word_eq ha hb hc hd he hf, digits_eq]
  simp only [List.cons.injEq, and_true]
  omega

/-- **There is exactly one checksum.** -/
theorem createChecksum_iff {hrp : List Char} {data ds : List ℕ} (hlength : ds.length = checksumLength)
    (hlt : ∀ v ∈ ds, v < 32) : verifyChecksum hrp (data ++ ds) = true ↔ ds = createChecksum hrp data := by
  set c := remainder shift 1 (hrpExpand hrp ++ data) with hc
  set z := remainder shift c (List.replicate checksumLength 0) with hz
  have hzlt : z < 2 ^ 30 := by
    rw [hz, checksumLength, List.replicate_succ', remainder_append, remainder_singleton, Nat.xor_zero]
    exact shift_lt _
  have hplt : z ^^^ bech32mConst < 2 ^ 30 := Nat.xor_lt_two_pow hzlt (by decide)
  have hcreate : createChecksum hrp data = digits (z ^^^ bech32mConst) := by
    unfold createChecksum digits
    rw [polymod_eq, remainder_append, ← hc, ← hz]
  have hverify : polymod (hrpExpand hrp ++ (data ++ ds)) = z ^^^ remainder shift 0 ds := by
    rw [polymod_eq, ← List.append_assoc, remainder_append, ← hc, remainder_split shift_linear, hlength, ← hz]
  unfold verifyChecksum
  rw [decide_eq_true_iff, hverify, hcreate]
  constructor
  · intro h
    have hword : remainder shift 0 ds = z ^^^ bech32mConst := by
      rw [← h, ← Nat.xor_assoc, Nat.xor_self, Nat.zero_xor]
    rw [← hword, digits_word hlength hlt]
  · intro h
    rw [h, word_digits hplt, ← Nat.xor_assoc, Nat.xor_self, Nat.zero_xor]

/-! ## Strings -/

/-- The character of a value. -/
def charOf (value : ℕ) : Char := charset.getD value ' '

theorem charset_get {value : ℕ} (h : value < 32) : charset[value]? = some (charOf value) := by
  have hlength : value < charset.length := h
  unfold charOf
  rw [List.getD_eq_getElem _ _ hlength, List.getElem?_eq_getElem hlength]

theorem charset_nodup : charset.Nodup := by simp [charset]

theorem charsetIndex_charOf {value : ℕ} (h : value < 32) : charsetIndex (charOf value) = some value := by
  have hlength : value < charset.length := h
  unfold charsetIndex charOf
  rw [List.getD_eq_getElem _ _ hlength, List.idxOf?, List.findIdx?_eq_some_iff_getElem]
  refine ⟨hlength, beq_self_eq_true _, ?_⟩
  intro j hj heq
  exact absurd (charset_nodup.getElem_inj_iff.1 (eq_of_beq heq)) (by omega)

/-- A character of the set is that of its value. -/
theorem charsetIndex_some {c : Char} {value : ℕ} (h : charsetIndex c = some value) : value < 32 ∧ c = charOf value := by
  unfold charsetIndex at h
  rw [List.idxOf?, List.findIdx?_eq_some_iff_getElem] at h
  obtain ⟨hlt, hchar, -⟩ := h
  refine ⟨hlt, ?_⟩
  unfold charOf
  rw [List.getD_eq_getElem _ _ hlt]
  exact (eq_of_beq hchar).symm

/-- What a data character is: lower case, printable, and not the separator. -/
theorem charset_plain : ∀ c ∈ charset, c.toNat < 128 ∧ c.toLower = c ∧ 33 ≤ c.toNat ∧ c.toNat ≤ 126 ∧ c ≠ '1' := by
  simp [charset]

theorem charOf_mem {value : ℕ} (h : value < 32) : charOf value ∈ charset := List.mem_of_getElem? (charset_get h)

theorem mapM_charsetIndex {chars : List Char} {data : List ℕ} :
    chars.mapM charsetIndex = some data ↔ (∀ v ∈ data, v < 32) ∧ chars = data.map charOf := by
  induction chars generalizing data with
  | nil =>
    simp only [List.mapM_nil]
    constructor
    · intro h
      cases h
      exact ⟨fun v hv => (by cases hv), rfl⟩
    · rintro ⟨-, h⟩
      rw [List.map_eq_nil_iff.1 h.symm]
      rfl
  | cons c chars ih =>
    simp only [List.mapM_cons, Option.bind_eq_bind, Option.bind_eq_some_iff]
    constructor
    · rintro ⟨value, hvalue, rest, hrest, h⟩
      cases h
      obtain ⟨hlt, rfl⟩ := charsetIndex_some hvalue
      obtain ⟨hall, rfl⟩ := ih.1 hrest
      exact ⟨List.forall_mem_cons.2 ⟨hlt, hall⟩, rfl⟩
    · rintro ⟨hall, h⟩
      cases data with
      | nil => cases h
      | cons value data =>
        rw [List.map_cons, List.cons.injEq] at h
        obtain ⟨hlt, hall⟩ := List.forall_mem_cons.1 hall
        exact ⟨value, h.1 ▸ charsetIndex_charOf hlt, data, ih.2 ⟨hall, h.2⟩, rfl⟩

section Strings

variable {unicodeLower : List Char → List Char}

/-- The string of a prefix and data. -/
def stringOf (data : List ℕ) : List Char := hrpText ++ ['1'] ++ data.map charOf

theorem rfindOne_some {s : List Char} {i : ℕ} (h : rfindOne s = some i) :
    ∃ front back, s = front ++ ['1'] ++ back ∧ front.length = i := by
  unfold rfindOne at h
  obtain ⟨j, hj, rfl⟩ := Option.map_eq_some_iff.1 h
  rw [List.idxOf?, List.findIdx?_eq_some_iff_getElem] at hj
  obtain ⟨hlt, hchar, -⟩ := hj
  rw [List.length_reverse] at hlt
  have hi : s.length - 1 - j < s.length := by omega
  have hone : s[s.length - 1 - j] = '1' := by
    have hget := eq_of_beq hchar
    rwa [List.getElem_reverse] at hget
  refine ⟨s.take (s.length - 1 - j), s.drop (s.length - 1 - j + 1), ?_, ?_⟩
  · rw [← hone, List.append_assoc, List.singleton_append, ← List.drop_eq_getElem_cons hi, List.take_append_drop]
  · rw [List.length_take]
    omega

theorem rfindOne_stringOf {data : List ℕ} (hlt : ∀ v ∈ data, v < 32) : rfindOne (stringOf data) = some 3 := by
  have hnone : '1' ∉ (data.map charOf).reverse := by
    intro hmem
    obtain ⟨v, hv, hone⟩ := List.mem_map.1 (List.mem_reverse.1 hmem)
    exact (charset_plain _ (charOf_mem (hlt v hv))).2.2.2.2 hone
  have hfind : (stringOf data).reverse.idxOf? '1' = some data.length := by
    have hreverse : (stringOf data).reverse = (data.map charOf).reverse ++ ('1' :: hrpText.reverse) := by
      simp [stringOf]
    rw [List.idxOf?, List.findIdx?_eq_some_iff_getElem, hreverse]
    refine ⟨by simp, by simp, ?_⟩
    intro j hj heq
    rw [List.getElem_append_left (by simpa using hj)] at heq
    exact hnone (eq_of_beq heq ▸ List.getElem_mem _)
  unfold rfindOne
  rw [hfind, Option.map_some]
  simp [stringOf, hrpText]
  omega

theorem stringOf_plain {data : List ℕ} (hlt : ∀ v ∈ data, v < 32) :
    ∀ c ∈ stringOf data, c.toNat < 128 ∧ c.toLower = c ∧ 33 ≤ c.toNat ∧ c.toNat ≤ 126 := by
  have hfront : ∀ c ∈ hrpText ++ ['1'], c.toNat < 128 ∧ c.toLower = c ∧ 33 ≤ c.toNat ∧ c.toNat ≤ 126 := by
    simp [hrpText]
  intro c hc
  rcases List.mem_append.1 hc with hc | hc
  · exact hfront c hc
  · obtain ⟨v, hv, rfl⟩ := List.mem_map.1 hc
    obtain ⟨hascii, hlower, hmin, hmax, -⟩ := charset_plain _ (charOf_mem (hlt v hv))
    exact ⟨hascii, hlower, hmin, hmax⟩

theorem lower_eq_self {s : List Char} (hascii : ∀ c ∈ s, c.toNat < 128) (hlower : ∀ c ∈ s, c.toLower = c) :
    lower unicodeLower s = s := by
  unfold lower
  rw [if_pos (by simpa using hascii)]
  exact (List.map_congr_left hlower).trans (List.map_id s)

theorem hasInvalid_eq_false {s : List Char} (h : ∀ c ∈ s, 33 ≤ c.toNat ∧ c.toNat ≤ 126) : hasInvalid s = false := by
  unfold hasInvalid
  rw [List.any_eq_false]
  intro c hc
  have hrange := h c hc
  simp
  omega

theorem validateHrp_hrpText : validateHrp unicodeLower hrpText = .ok () := by
  have hplain := stringOf_plain (List.forall_mem_nil fun v : ℕ => v < 32)
  have hfront : ∀ c ∈ hrpText, c ∈ stringOf [] := by
    intro c hc
    exact List.mem_append_left _ (List.mem_append_left _ hc)
  have hlower : lower unicodeLower hrpText = hrpText :=
    lower_eq_self (fun c hc => (hplain c (hfront c hc)).1) fun c hc => (hplain c (hfront c hc)).2.1
  have hvalid : hasInvalid hrpText = false := hasInvalid_eq_false fun c hc => (hplain c (hfront c hc)).2.2
  unfold validateHrp require
  rw [ensure_of _ (by decide : hrpText ≠ []), ok_bind, ensure_of _ hlower.symm, ok_bind, ensure_of _ hvalid]

theorem bech32mEncode_eq {data : List ℕ} (hlt : ∀ v ∈ data, v < 32) :
    bech32mEncode unicodeLower hrpText data = .ok (stringOf (data ++ createChecksum hrpText data)) := by
  have hall : ∀ v ∈ data ++ createChecksum hrpText data, v < 32 := by
    intro v hv
    rcases List.mem_append.1 hv with hv | hv
    · exact hlt v hv
    · obtain ⟨i, -, rfl⟩ := List.mem_map.1 hv
      exact Nat.and_lt_two_pow (n := 5) _ (by decide)
  have hchars : (data ++ createChecksum hrpText data).mapM
      (fun value => Exn.get charset[value]? (Failure.other (.indexError "string index out of range"))) =
      .ok ((data ++ createChecksum hrpText data).map charOf) := by
    apply mapM_eq_map
    intro v hv
    rw [charset_get (hall v hv), get_some]
  unfold bech32mEncode
  rw [validateHrp_hrpText, ok_bind]
  dsimp only
  rw [hchars]
  rfl

/-- Data with its checksum is read back. -/
theorem bech32mDecode_stringOf {data ds : List ℕ} (hlt : ∀ v ∈ data ++ ds, v < 32) (hlength : ds.length = checksumLength)
    (hshort : (data ++ ds).length ≤ 86) (hverify : verifyChecksum hrpText (data ++ ds) = true) :
    bech32mDecode unicodeLower (stringOf (data ++ ds)) = .ok (hrpText, data) := by
  have hplain := stringOf_plain hlt
  have hlower : lower unicodeLower (stringOf (data ++ ds)) = stringOf (data ++ ds) :=
    lower_eq_self (fun c hc => (hplain c hc).1) fun c hc => (hplain c hc).2.1
  have hvalid : hasInvalid (stringOf (data ++ ds)) = false := hasInvalid_eq_false fun c hc => (hplain c hc).2.2
  have hcount : (stringOf (data ++ ds)).length = 4 + (data ++ ds).length := by
    simp [stringOf, hrpText]
    omega
  have hfront : (stringOf (data ++ ds)).take 3 = hrpText := rfl
  have hback : (stringOf (data ++ ds)).drop (3 + 1) = (data ++ ds).map charOf := rfl
  have hsix : (data ++ ds).take ((data ++ ds).length - checksumLength) = data := by
    rw [List.length_append, hlength, Nat.add_sub_cancel, List.take_left]
  have hlong : checksumLength ≤ (data ++ ds).length := by
    rw [List.length_append, hlength]
    exact Nat.le_add_left _ _
  unfold bech32mDecode require
  dsimp only
  rw [rfindOne_stringOf hlt, Option.getD_some, hcount, ensure_of _ (by unfold maxBech32Length; omega), ok_bind,
    ensure_of _ hlower.symm, ok_bind, ensure_of _ hvalid, ok_bind, ensure_of _ (by decide), ok_bind,
    ensure_of _ (by omega), ok_bind, hfront, validateHrp_hrpText, ok_bind, hback,
    mapM_charsetIndex.2 ⟨hlt, rfl⟩, get_some, ok_bind, ensure_of _ hverify, ok_bind, hsix]
  rfl

/-- **Only data with its checksum is accepted.** -/
theorem bech32mDecode_ok {address : List Char} {data : List ℕ}
    (h : bech32mDecode unicodeLower address = .ok (hrpText, data)) :
    ∃ ds, ds.length = checksumLength ∧ (∀ v ∈ data ++ ds, v < 32) ∧ verifyChecksum hrpText (data ++ ds) = true ∧
      address = stringOf (data ++ ds) := by
  unfold bech32mDecode require at h
  simp only [bind_ok, ensure_ok, get_ok, pure_ok, Prod.mk.injEq] at h
  obtain ⟨-, -, -, -, -, -, -, hseparator, -, hsix, -, -, all, hall, -, hverify, hhrp, hdata⟩ := h
  cases hfind : rfindOne address with
  | none =>
    rw [hfind] at hseparator
    exact absurd hseparator (by decide)
  | some separator =>
    rw [hfind, Option.getD_some] at hsix hall hverify hhrp
    obtain ⟨front, back, rfl, rfl⟩ := rfindOne_some hfind
    -- the last separator splits the text in two
    have hfront : (front ++ ['1'] ++ back).take front.length = front := by
      rw [List.append_assoc, List.take_left]
    have hback : (front ++ ['1'] ++ back).drop (front.length + 1) = back :=
      List.drop_left' (by simp)
    rw [hfront] at hhrp hverify
    rw [hback] at hall
    obtain ⟨hlt, rfl⟩ := mapM_charsetIndex.1 hall
    have hlong : checksumLength ≤ all.length := by
      simp only [List.length_append, List.length_singleton, List.length_map] at hsix
      omega
    have hsplit : data ++ all.drop (all.length - checksumLength) = all := by
      rw [← hdata, List.take_append_drop]
    refine ⟨all.drop (all.length - checksumLength), ?_, ?_, ?_, ?_⟩
    · rw [List.length_drop]
      omega
    · rw [hsplit]
      exact hlt
    · rw [hsplit, ← hhrp]
      exact hverify
    · rw [hsplit, hhrp]
      rfl

/-! ## Addresses -/

/-- The values of the bytes of a hash. -/
def valuesOf (h : Hash) : List ℕ := h.bytes.map fun b => b.val

theorem valuesOf_lt (h : Hash) : ∀ v ∈ valuesOf h, v < 2 ^ 8 := by
  intro v hv
  obtain ⟨b, -, rfl⟩ := List.mem_map.1 hv
  exact b.isLt

theorem length_valuesOf (h : Hash) : (valuesOf h).length = hashLenBytes := by
  unfold valuesOf
  rw [List.length_map]
  exact h.len

theorem ofValues (h : Hash) : (valuesOf h).map (Fin.ofNat 256) = h.bytes := by
  unfold valuesOf
  rw [List.map_map]
  refine (List.map_congr_left fun b _ => ?_).trans (List.map_id _)
  exact Fin.ext (Nat.mod_eq_of_lt b.isLt)

/-- What `address_to_pubkey_hash` accepts. -/
theorem addressToPubkeyHash_ok {address : List Char} {h : Hash} :
    addressToPubkeyHash unicodeLower address = .ok h ↔
      ∃ data, bech32mDecode unicodeLower address = .ok (hrpText, data) ∧ convertbits data 5 8 false = .ok (valuesOf h) := by
  unfold addressToPubkeyHash require
  constructor
  · intro hok
    obtain ⟨⟨hrp, data⟩, hdecode, hrest⟩ := bind_ok.1 hok
    obtain ⟨_, hhrp, hrest⟩ := bind_ok.1 hrest
    obtain ⟨payload, hpayload, hlast⟩ := bind_ok.1 hrest
    rw [ensure_ok] at hhrp
    subst hhrp
    refine ⟨data, hdecode, ?_⟩
    by_cases hlength : payload.length = hashLenBytes
    · rw [dif_pos hlength, Except.ok.injEq] at hlast
      have hlt := ((convertbits_strict (by decide)).1 hpayload).2.1
      have hvalues : valuesOf h = payload := by
        rw [← hlast]
        unfold valuesOf
        dsimp only
        rw [List.map_map]
        refine (List.map_congr_left fun v hv => ?_).trans (List.map_id _)
        exact Nat.mod_eq_of_lt (hlt v hv)
      rw [hvalues, hpayload]
    · rw [dif_neg hlength] at hlast
      cases hlast
  · rintro ⟨data, hdecode, hpayload⟩
    rw [hdecode, ok_bind]
    dsimp only
    rw [ensure_of _ rfl, ok_bind, hpayload, ok_bind, dif_pos (length_valuesOf h), Except.ok.injEq]
    exact FixedBytes.bytes_inj.1 (ofValues h)

theorem encodeHash_eq {h : Hash} {groups : List ℕ} (hgroups : convertbits (valuesOf h) 8 5 true = .ok groups)
    (hlt : ∀ g ∈ groups, g < 32) :
    encodeHash unicodeLower h = .ok (stringOf (groups ++ createChecksum hrpText groups)) := by
  unfold encodeHash
  change (convertbits (valuesOf h) 8 5 true >>= _) = _
  rw [hgroups, ok_bind, bech32mEncode_eq hlt]

/-- **One address for every hash.** -/
theorem decodes_iff (unicodeLower : List Char → List Char) (h : Hash) : ∃ groups, convertbits (valuesOf h) 8 5 true = .ok groups ∧
    encodeHash unicodeLower h = .ok (stringOf (groups ++ createChecksum hrpText groups)) ∧
    ∀ address, addressToPubkeyHash unicodeLower address = .ok h ↔
      address = stringOf (groups ++ createChecksum hrpText groups) := by
  obtain ⟨groups, hgroups, hcount, hlt, hinverse⟩ := convertbits_inverse (length_valuesOf h) (valuesOf_lt h)
  refine ⟨groups, hgroups, encodeHash_eq hgroups hlt, ?_⟩
  intro address
  rw [addressToPubkeyHash_ok]
  constructor
  · rintro ⟨data, hdecode, hconvert⟩
    obtain rfl := (hinverse data).1 hconvert
    obtain ⟨ds, hlength, hall, hverify, haddress⟩ := bech32mDecode_ok hdecode
    have hds : ∀ v ∈ ds, v < 32 := fun v hv => hall v (List.mem_append_right _ hv)
    rw [haddress, (createChecksum_iff hlength hds).1 hverify]
  · rintro rfl
    have hlength : (createChecksum hrpText groups).length = checksumLength := by
      unfold createChecksum
      rw [List.length_map, List.length_range]
    have hds : ∀ v ∈ createChecksum hrpText groups, v < 32 := by
      intro v hv
      obtain ⟨i, -, rfl⟩ := List.mem_map.1 hv
      exact Nat.and_lt_two_pow (n := 5) _ (by decide)
    refine ⟨groups, ?_, (hinverse groups).2 rfl⟩
    refine bech32mDecode_stringOf (List.forall_mem_append.2 ⟨hlt, hds⟩) hlength ?_ ((createChecksum_iff hlength hds).2 rfl)
    rw [List.length_append, hcount, hlength]
    decide

/-- **Addresses are in bijection with hashes.** Every hash has one address, the prefix, the
separator and the characters of its five-bit groups and their checksum; an address that is
accepted is the address of what it decodes to. -/
theorem address_bijective (unicodeLower : List Char → List Char) :
    (∀ h : Hash, ∃ groups address, convertbits (h.bytes.map fun b => b.val) 8 5 true = .ok groups ∧
      address = hrpText ++ ['1'] ++ (groups ++ createChecksum hrpText groups).map charOf ∧
      encodeHash unicodeLower h = .ok address ∧
      ∀ address', addressToPubkeyHash unicodeLower address' = .ok h ↔ address' = address) ∧
    (∀ address h, addressToPubkeyHash unicodeLower address = .ok h → encodeHash unicodeLower h = .ok address) ∧
    ∀ (C : Crypto) (pubkey : Bytes), pubkey.length = 32 → ∃ address, pubkeyToAddress unicodeLower C pubkey = .ok address ∧
      addressToPubkeyHash unicodeLower address = .ok (C.domainHash domainAddress pubkey) := by
  refine ⟨?_, ?_, ?_⟩
  · intro h
    obtain ⟨groups, hgroups, hencode, hdecode⟩ := decodes_iff unicodeLower h
    exact ⟨groups, _, hgroups, rfl, hencode, hdecode⟩
  · intro address h hdecode
    obtain ⟨groups, -, hencode, hiff⟩ := decodes_iff unicodeLower h
    rw [hencode, (hiff address).1 hdecode]
  · intro C pubkey hlength
    obtain ⟨groups, -, hencode, hiff⟩ := decodes_iff unicodeLower (C.domainHash domainAddress pubkey)
    refine ⟨_, ?_, (hiff _).2 rfl⟩
    unfold pubkeyToAddress
    rw [ensure_of _ hlength, ok_bind, hencode]

/-- **`validate_address` accepts the addresses of hashes**, and nothing else. -/
theorem validateAddress_iff (unicodeLower : List Char → List Char) (address : List Char) :
    validateAddress unicodeLower address = true ↔ ∃ h, encodeHash unicodeLower h = .ok address := by
  unfold validateAddress
  constructor
  · intro hvalid
    obtain ⟨h, hdecode⟩ := Exn.returns_of_isOk hvalid
    obtain ⟨groups, -, hencode, hiff⟩ := decodes_iff unicodeLower h
    exact ⟨h, by rw [hencode, (hiff address).1 hdecode]⟩
  · rintro ⟨h, haddress⟩
    obtain ⟨groups, -, hencode, hiff⟩ := decodes_iff unicodeLower h
    rw [hencode, Except.ok.injEq] at haddress
    rw [(hiff address).2 haddress.symm]
    rfl

/-! ## Typos -/

/-- The shifted values differ above their low bits: up to 57 shifts, of all nonzero values. -/
theorem shift_separates : Separates shift 30 5 57 where
  linear := shift_linear
  lt _ _ := shift_lt _
  kernel _ := shift_kernel
  low_le := by decide
  distinct := distinctBits_nodup (n := 25) (by decide +kernel)

/-- An accepted string has 58 data values, with their checksum. -/
theorem accepted_data {address : List Char} {h : Hash} (hok : addressToPubkeyHash unicodeLower address = .ok h) :
    ∃ data : List ℕ, data.length = 58 ∧ (∀ v ∈ data, v < 32) ∧ verifyChecksum hrpText data = true ∧
      address = stringOf data := by
  obtain ⟨groups, hdecode, hconvert⟩ := addressToPubkeyHash_ok.1 hok
  obtain ⟨-, -, k, hk, -, hbits⟩ := (convertbits_strict (by decide)).1 hconvert
  obtain ⟨hcount, -⟩ := groups_length (length_valuesOf h) hk hbits
  obtain ⟨ds, hlength, hlt, hverify, haddress⟩ := bech32mDecode_ok hdecode
  refine ⟨groups ++ ds, ?_, hlt, hverify, haddress⟩
  rw [List.length_append, hcount, hlength]
  rfl

/-- In how many places two strings differ. -/
def differences (s t : List Char) : ℕ := (s.zip t).countP fun p => p.1 ≠ p.2

theorem charOf_inj {u v : ℕ} (hu : u < 32) (hv : v < 32) (h : charOf u = charOf v) : u = v := by
  have hindex := charsetIndex_charOf hu
  rw [h, charsetIndex_charOf hv, Option.some.injEq] at hindex
  exact hindex.symm

/-- A character differs where the values have a nonzero sum. -/
theorem differences_map {data data' : List ℕ} (hlt : ∀ v ∈ data, v < 32) (hlt' : ∀ v ∈ data', v < 32) :
    differences (data.map charOf) (data'.map charOf) = weight (List.zipWith (fun x y => x ^^^ y) data data') := by
  induction data generalizing data' with
  | nil => rfl
  | cons u data ih =>
    cases data' with
    | nil => rfl
    | cons v data' =>
      obtain ⟨hu, hlt⟩ := List.forall_mem_cons.1 hlt
      obtain ⟨hv, hlt'⟩ := List.forall_mem_cons.1 hlt'
      have hrest := ih hlt hlt'
      have hsame : (charOf u ≠ charOf v) ↔ u ^^^ v ≠ 0 := by
        rw [Ne, Ne, Nat.xor_eq_zero_iff]
        exact not_congr ⟨charOf_inj hu hv, fun h => by rw [h]⟩
      unfold differences weight at *
      simp only [List.map_cons, List.zip_cons_cons, List.zipWith_cons_cons, List.countP_cons, hrest]
      simp [hsame]

theorem differences_stringOf {data data' : List ℕ} (hlt : ∀ v ∈ data, v < 32) (hlt' : ∀ v ∈ data', v < 32) :
    differences (stringOf data) (stringOf data') = weight (List.zipWith (fun x y => x ^^^ y) data data') := by
  rw [← differences_map hlt hlt']
  unfold differences stringOf
  rw [List.zip_append rfl, List.countP_append]
  simp [hrpText]

/-- **Typos are detected.** A string that differs from a valid address in one, two or three
places is refused, wherever the places are and whatever stands there. -/
theorem typos_detected {address typo : List Char} {h : Hash} (hok : addressToPubkeyHash unicodeLower address = .ok h)
    (hlength : typo.length = address.length) (hone : 1 ≤ differences address typo)
    (hthree : differences address typo ≤ 3) : ∃ e, addressToPubkeyHash unicodeLower typo = .error e := by
  cases htypo : addressToPubkeyHash unicodeLower typo with
  | error e => exact ⟨e, rfl⟩
  | ok h' =>
    exfalso
    obtain ⟨data, hcount, hlt, hverify, rfl⟩ := accepted_data hok
    obtain ⟨data', hcount', hlt', hverify', rfl⟩ := accepted_data htypo
    rw [differences_stringOf hlt hlt'] at hone hthree
    unfold verifyChecksum at hverify hverify'
    rw [decide_eq_true_iff, polymod_eq, remainder_append] at hverify hverify'
    -- the two checksums agree, so the sum of the two is a codeword
    have hsum := remainder_xor shift_linear (hcount.trans hcount'.symm) (remainder shift 1 (hrpExpand hrpText))
      (remainder shift 1 (hrpExpand hrpText))
    rw [hverify, hverify', Nat.xor_self, Nat.xor_self] at hsum
    refine shift_separates.remainder_ne_zero ?_ ?_ hone hthree hsum
    · rw [List.length_zipWith, hcount, hcount']
      decide
    · intro v hv
      obtain ⟨i, hi, rfl⟩ := List.getElem_of_mem hv
      rw [List.getElem_zipWith]
      exact Nat.xor_lt_two_pow (hlt _ (List.getElem_mem _)) (hlt' _ (List.getElem_mem _))

/-- The address of 32 zero bytes. -/
def zeroAddress : List Char := stringOf (List.replicate 52 0 ++ createChecksum hrpText (List.replicate 52 0))

theorem zeroAddress_accepted : addressToPubkeyHash id zeroAddress = .ok (FixedBytes.zero 32) := by
  obtain ⟨groups, hgroups, -, hiff⟩ := decodes_iff id (FixedBytes.zero 32)
  have hzero : convertbits (valuesOf (FixedBytes.zero 32)) 8 5 true = .ok (List.replicate 52 0) := by decide +kernel
  rw [hgroups, Except.ok.injEq] at hzero
  rw [hiff, hzero]
  rfl

theorem typos_detected_zeroAddress :
    addressToPubkeyHash id zeroAddress = .ok (FixedBytes.zero 32) ∧
      ∃ e, addressToPubkeyHash id (zeroAddress.set 4 'p') = .error e := by
  refine ⟨zeroAddress_accepted, typos_detected zeroAddress_accepted (List.length_set ..) ?_ ?_⟩
  · decide +kernel
  · decide +kernel

end Strings

end TensorPow.Address
