import TensorPow.Spec.Pow

/-!
# Work that every backend accepts

A product of two int8 matrices of `POW_MATRIX_DIM` rows stays far from the limits of int32, so that
every backend computes the exact product and all of them the same digest. What a miner finds
is the first nonce whose header passes the check, and it passes on every backend.

* `matmulInt8_exact`: an entry of the product.
* `backends_agree`: one digest for all backends.
* `resolveBackend_name`: the name of a device that was found stands for it.
* `mine_first`: the nonce that is found.
-/

namespace TensorPow

namespace Pow

open Wire

variable {C : Crypto} {X : Xof}

/-! ## The product -/

theorem abs_entry_le {n : ℕ} (m : Int8Matrix n) (i j : Fin n) : |m.entry i j| ≤ 128 := by
  have h := m.range i j
  rw [abs_le]
  omega

theorem abs_product_le {n : ℕ} (left right : Int8Matrix n) (i j k : Fin n) :
    |left.entry i k * right.entry k j| ≤ 128 * 128 := by
  rw [abs_mul]
  exact mul_le_mul (abs_entry_le left i k) (abs_entry_le right k j) (abs_nonneg _) (by norm_num)

theorem Backend.fit_of_abs_le {n : ℕ} (B : Backend n) {z : ℤ} (h : |z| ≤ 2 ^ 24) : B.fit z = z := by
  rw [abs_le] at h
  exact B.fit_int32 z (by omega) (by omega)

/-- Every backend computes the exact entries, which are at most `2 ^ 24` in size. -/
theorem matmulInt8_exact (B : Backend matrixDim) (left right : Int8Matrix matrixDim) (i j : Fin matrixDim) :
    matmulInt8 B left right i j = ∑ k, left.entry i k * right.entry k j ∧ |matmulInt8 B left right i j| ≤ 2 ^ 24 := by
  have hsize : ((List.finRange matrixDim).length : ℤ) * (128 * 128) ≤ 2 ^ 24 := by
    rw [List.length_finRange]
    norm_num [matrixDim]
  have hterms : ∀ k ∈ List.finRange matrixDim, |left.entry i k * right.entry k j| ≤ 128 * 128 :=
    fun k _ => abs_product_le left right i j k
  have hexact : matmulInt8 B left right i j = ((List.finRange matrixDim).map fun k => left.entry i k * right.entry k j).sum :=
    Accum.Tree.eval_of_perm (fun z hz => B.fit_of_abs_le hz) (by norm_num) (B.order_all i j) hterms hsize
  constructor
  · rw [hexact, ← List.ofFn_eq_map, List.sum_ofFn]
  · rw [hexact]
    exact (Accum.Tree.abs_sum_le _ hterms).trans hsize

theorem powDigestForHeader_agree (B B' : Backend matrixDim) (header : Header) :
    powDigestForHeader C X B header = powDigestForHeader C X B' header := by
  unfold powDigestForHeader
  set challenge := buildChallengeMatrices X header matrixDim
  have hsame : matmulInt8 B challenge.1 challenge.2 = matmulInt8 B' challenge.1 challenge.2 := by
    funext i j
    rw [(matmulInt8_exact B challenge.1 challenge.2 i j).1, (matmulInt8_exact B' challenge.1 challenge.2 i j).1]
  exact congrArg (powDigest C) hsame

theorem verifyPow_agree (B B' : Backend matrixDim) (header : Header) (target : Hash) :
    verifyPow C X B header target = verifyPow C X B' header target := by
  unfold verifyPow
  rw [powDigestForHeader_agree B B']

/-- **All backends agree.** Whatever order a backend adds up its products in and whatever its
accumulator does on overflow, it computes for every header the exact product of the two
challenge matrices, whose entries stay within a hundredth of the int32 range, and the digest
that every other backend computes. -/
theorem backends_agree (B B' : Backend matrixDim) (header : Header) :
    let left := (buildChallengeMatrices X header matrixDim).1
    let right := (buildChallengeMatrices X header matrixDim).2
    powDigestForHeader C X B header = powDigestForHeader C X B' header ∧
      ∀ i j, matmulInt8 B left right i j = ∑ k, left.entry i k * right.entry k j ∧
        |matmulInt8 B left right i j| ≤ 2 ^ 24 :=
  ⟨powDigestForHeader_agree B B' header, fun i j => matmulInt8_exact B _ _ i j⟩

/-! ## The name of a backend -/

variable {M : Machine} {backend : String} {device : Device}

/-- The name of a device that a machine was found to have stands for it there. -/
theorem resolveBackend_name (h : resolveBackend M backend = .ok device) : resolveBackend M device.name = .ok device := by
  unfold resolveBackend at h
  obtain ⟨_, -, h⟩ := Exn.bind_ok.1 h
  have hcuda (hc : M.cudaAvailable = true) (hi : M.intMm = true) : resolveBackend M Device.cuda.name = .ok .cuda := by
    simp [resolveBackend, validBackends, Device.name, Exn.ensure, hc, hi, Pure.pure, Except.pure]
  have hmps (hm : M.mpsInt32MmAvailable = true) : resolveBackend M Device.mps.name = .ok .mps := by
    simp [resolveBackend, validBackends, Device.name, Exn.ensure, hm, Pure.pure, Except.pure]
  have hcpu : resolveBackend M Device.cpu.name = .ok .cpu := rfl
  split at h
  · rw [Exn.pure_ok] at h
    subst h
    split
    · exact hcuda (by tauto) (by tauto)
    · split
      · exact hmps ‹_›
      · exact hcpu
  · split at h
    · simp only [Exn.bind_ok, Exn.ensure_ok, Exn.pure_ok, exists_const] at h
      obtain ⟨hc, hi, rfl⟩ := h
      exact hcuda hc hi
    · split at h
      · simp only [Exn.bind_ok, Exn.ensure_ok, Exn.pure_ok, exists_const] at h
        obtain ⟨hm, rfl⟩ := h
        exact hmps hm
      · cases h
        exact hcpu

theorem powDigestForHeaderOn_eq (h : resolveBackend M backend = .ok device) (header : Header) :
    powDigestForHeaderOn C X M backend header = .ok (powDigestForHeader C X (M.product device) header) := by
  unfold powDigestForHeaderOn
  rw [h]
  rfl

theorem verifyPowOn_eq (h : resolveBackend M backend = .ok device) (header : Header) (target : Hash) :
    verifyPowOn C X M backend header target = .ok (verifyPow C X (M.product device) header target) := by
  unfold verifyPowOn
  rw [powDigestForHeaderOn_eq h]
  rfl

/-! ## The search -/

theorem requireUint_of_le (name : String) {value max : ℕ} (h : value ≤ max) : requireUint name value max = .ok () :=
  Exn.ensure_of _ h

/-- A checked header stays checked under any nonce of 64 bits. -/
theorem Header.withNonce_ok {h : Header} (hvalid : h.postInit = .ok ()) {nonce : ℕ} (hnonce : nonce ≤ u64Max) :
    h.withNonce nonce = .ok (h.setNonce nonce) := by
  have hpost : (h.setNonce nonce).postInit = .ok () := by
    cases h with
    | fruit h =>
      simp only [Header.postInit, Header.setNonce, FruitPowHeader.postInit, requireUint, Exn.bind_ok, Exn.ensure_ok,
        exists_and_left, exists_const] at hvalid ⊢
      tauto
    | anchor h =>
      simp only [Header.postInit, Header.setNonce, anchorPostInit, requireUint, Exn.bind_ok, Exn.ensure_ok,
        exists_and_left, exists_const] at hvalid ⊢
      tauto
  unfold Header.withNonce
  rw [requireUint_of_le _ hnonce, Exn.ok_bind, hpost]
  rfl

/-- What was found is the first nonce from `start` on whose header passes the check. -/
structure FoundNonce.IsFirst (C : Crypto) (X : Xof) (M : Machine) (device : Device) (template : Header) (target : Hash)
    (maxNonce : Option ℕ) (start attempts : ℕ) (f : FoundNonce) : Prop where
  backend_eq : f.backend = device.name
  le_nonce : start ≤ f.nonce
  nonce_le : f.nonce ≤ u64Max
  nonce_le_max : ∀ last ∈ maxNonce, f.nonce ≤ last
  header_eq : f.header = template.setNonce f.nonce
  digest_eq : f.digest = powDigestForHeader C X (M.product device) f.header
  attempts_eq : f.attempts = attempts + (f.nonce - start) + 1
  passes : verifyPow C X (M.product device) f.header target = true
  first : ∀ n, start ≤ n → n < f.nonce → verifyPow C X (M.product device) (template.setNonce n) target = false

/-- No nonce from `start` on passes the check. -/
def Exhausted (C : Crypto) (X : Xof) (M : Machine) (device : Device) (template : Header) (target : Hash)
    (maxNonce : Option ℕ) (start : ℕ) : Prop :=
  ∀ n, start ≤ n → n ≤ u64Max → (∀ last ∈ maxNonce, n ≤ last) →
    verifyPow C X (M.product device) (template.setNonce n) target = false

/-- None of the first `asked` answers was that the event is set. -/
def NeverSet (stop : ℕ → Bool) (asked : ℕ) : Prop := ∀ k < asked, stop k = false

/-- The last of the `asked` answers, and no other, was that the event is set. -/
def SeenSet (stop : ℕ → Bool) (asked : ℕ) : Prop := ∃ k, asked = k + 1 ∧ stop k = true ∧ NeverSet stop k

theorem NeverSet.succ {stop : ℕ → Bool} {asked : ℕ} (h : NeverSet stop asked) (hstop : stop asked = false) :
    NeverSet stop (asked + 1) := by
  intro k hk
  rcases Nat.lt_succ_iff_lt_or_eq.1 hk with hk | rfl
  · exact h k hk
  · exact hstop

/-- What the loop returns, from a nonce on. -/
structure Searched (C : Crypto) (X : Xof) (M : Machine) (device : Device) (stop : ℕ → Bool) (template : Header)
    (target : Hash) (maxNonce : Option ℕ) (start attempts : ℕ) (r : Option FoundNonce) (asked : ℕ) : Prop where
  found : ∀ f, r = some f → f.IsFirst C X M device template target maxNonce start attempts ∧ NeverSet stop asked
  nothing : r = none → SeenSet stop asked ∨ NeverSet stop asked ∧ Exhausted C X M device template target maxNonce start

section Loop

variable {stop : ℕ → Bool} {template : Header} {target : Hash} {maxNonce : Option ℕ} {nonce attempts asked : ℕ}

theorem Searched.stopped (hold : NeverSet stop asked) (hstop : stop asked = true) :
    Searched C X M device stop template target maxNonce nonce attempts none (asked + 1) :=
  ⟨fun f hf => (Option.some_ne_none f hf.symm).elim, fun _ => Or.inl ⟨asked, rfl, hstop, hold⟩⟩

theorem Searched.exhausted (hold : NeverSet stop asked)
    (h : Exhausted C X M device template target maxNonce nonce) :
    Searched C X M device stop template target maxNonce nonce attempts none asked :=
  ⟨fun f hf => (Option.some_ne_none f hf.symm).elim, fun _ => Or.inr ⟨hold, h⟩⟩

/-- A nonce that fails, and the search from the next one on. -/
theorem Searched.cons {r : Option FoundNonce}
    (hfail : verifyPow C X (M.product device) (template.setNonce nonce) target = false)
    (h : Searched C X M device stop template target maxNonce (nonce + 1) (attempts + 1) r asked) :
    Searched C X M device stop template target maxNonce nonce attempts r asked := by
  constructor
  · intro f hf
    obtain ⟨hfirst, hold⟩ := h.found f hf
    have hstart := hfirst.le_nonce
    have hattempts := hfirst.attempts_eq
    refine ⟨⟨hfirst.backend_eq, by omega, hfirst.nonce_le, hfirst.nonce_le_max, hfirst.header_eq, hfirst.digest_eq,
      by omega, hfirst.passes, ?_⟩, hold⟩
    intro n h₁ h₂
    rcases Nat.eq_or_lt_of_le h₁ with rfl | h₁
    · exact hfail
    · exact hfirst.first n h₁ h₂
  · intro hr
    refine (h.nothing hr).imp_right ?_
    rintro ⟨hold, hexhausted⟩
    refine ⟨hold, fun n h₁ h₂ h₃ => ?_⟩
    rcases Nat.eq_or_lt_of_le h₁ with rfl | h₁
    · exact hfail
    · exact hexhausted n h₁ h₂ h₃

end Loop

/-- The loop from any nonce on. The fuel is the number of nonces that are left. -/
theorem mineLoop_spec (hdevice : resolveBackend M device.name = .ok device) (stop : ℕ → Bool) {template : Header}
    (target : Hash) (maxNonce : Option ℕ) (hvalid : template.postInit = .ok ()) :
    ∀ fuel nonce attempts asked, nonce ≤ u64Max → nonce + fuel = u64Max + 1 → NeverSet stop asked →
      ∃ r asked', mineLoop C X M stop template target maxNonce device.name fuel nonce attempts asked = .ok (r, asked') ∧
        Searched C X M device stop template target maxNonce nonce attempts r asked' := by
  intro fuel
  induction fuel with
  | zero =>
    -- a nonce is left as long as it has 64 bits
    intro nonce attempts asked hle hfuel
    omega
  | succ fuel ih =>
    intro nonce attempts asked hle hfuel hold
    unfold mineLoop
    by_cases hmax : ∀ last ∈ maxNonce, nonce ≤ last
    · rw [if_pos hmax]
      by_cases hstop : stop asked = true
      · rw [if_pos hstop]
        exact ⟨none, _, rfl, Searched.stopped hold hstop⟩
      · have hold := hold.succ (Bool.eq_false_iff.2 hstop)
        rw [if_neg hstop, Header.withNonce_ok hvalid hle, Exn.ok_bind, powDigestForHeaderOn_eq hdevice, Exn.ok_bind]
        by_cases hpass : targetAllowsDigest (powDigestForHeader C X (M.product device) (template.setNonce nonce)) target = true
        · rw [if_pos hpass]
          refine ⟨_, _, rfl, ?_, fun hnone => (Option.some_ne_none _ hnone).elim⟩
          intro f hf
          cases hf
          exact ⟨⟨rfl, le_rfl, hle, hmax, rfl, rfl, by simp, hpass, fun n h₁ h₂ => absurd h₂ (not_lt.2 h₁)⟩, hold⟩
        · have hfail : verifyPow C X (M.product device) (template.setNonce nonce) target = false := Bool.eq_false_iff.2 hpass
          rw [if_neg hpass]
          by_cases hstop' : stop (asked + 1) = true
          · rw [if_pos hstop']
            exact ⟨none, _, rfl, Searched.stopped hold hstop'⟩
          · have hold := hold.succ (Bool.eq_false_iff.2 hstop')
            rw [if_neg hstop']
            by_cases hlast : nonce = u64Max
            · rw [if_pos hlast]
              refine ⟨none, _, rfl, Searched.exhausted hold fun n h₁ h₂ _ => ?_⟩
              have hn : n = nonce := by omega
              rw [hn]
              exact hfail
            · rw [if_neg hlast]
              obtain ⟨r, asked', hr, hsearched⟩ := ih (nonce + 1) (attempts + 1) (asked + 2) (by omega) (by omega) hold
              exact ⟨r, asked', hr, hsearched.cons hfail⟩
    · rw [if_neg hmax]
      refine ⟨none, _, rfl, Searched.exhausted hold fun n h₁ _ h₃ => ?_⟩
      exact absurd (fun last hlast => h₁.trans (h₃ last hlast)) hmax

/-- **A miner finds the first nonce, and every node accepts it.** From a checked template and a range
of 64-bit nonces `mine` raises exactly what `resolve_backend` raises, and on a backend that
resolves it returns. What it finds is the first nonce of the range whose header passes
`verify_pow`, after trying each nonce before it once, and the header passes by the name of every
backend that resolves on any machine. It returns nothing only if the last answer it asked the
event for was that it is set, or if no nonce of the range passes. -/
theorem mine_first {stop : ℕ → Bool} {template : Header} {target : Hash} {startNonce : ℕ} {maxNonce : Option ℕ}
    (M : Machine) (backend : String) (hvalid : template.postInit = .ok ()) (hstart : startNonce ≤ u64Max)
    (hmax : ∀ last ∈ maxNonce, startNonce ≤ last ∧ last ≤ u64Max) :
    (∀ e, resolveBackend M backend = .error e → mine C X M stop template target backend startNonce maxNonce = .error e) ∧
    ∀ device, resolveBackend M backend = .ok device →
      ∃ r asked, mine C X M stop template target backend startNonce maxNonce = .ok (r, asked) ∧
        (∀ f, r = some f → f.IsFirst C X M device template target maxNonce startNonce 0 ∧ NeverSet stop asked ∧
          ∀ M' backend' device', resolveBackend M' backend' = .ok device' →
            verifyPowOn C X M' backend' f.header target = .ok true) ∧
        (r = none → SeenSet stop asked ∨
          NeverSet stop asked ∧ Exhausted C X M device template target maxNonce startNonce) := by
  -- the checks in front pass, so the result is that of the loop
  have hmine : mine C X M stop template target backend startNonce maxNonce = resolveBackend M backend >>= fun device =>
      mineLoop C X M stop template target maxNonce device.name (u64Max + 1 - startNonce) startNonce 0 0 := by
    unfold mine
    rw [Exn.ensure_of _ hstart, Exn.ok_bind, Exn.ensure_of _ hmax, Exn.ok_bind]
  rw [hmine]
  constructor
  · intro e he
    rw [he]
    rfl
  · intro device hdevice
    obtain ⟨r, asked, hr, hsearched⟩ := mineLoop_spec (C := C) (X := X) (resolveBackend_name hdevice) stop target maxNonce hvalid
      (u64Max + 1 - startNonce) startNonce 0 0 hstart (by omega) fun k hk => absurd hk (Nat.not_lt_zero k)
    rw [hdevice, Exn.ok_bind]
    refine ⟨r, asked, hr, fun f hf => ?_, hsearched.nothing⟩
    obtain ⟨hfirst, hold⟩ := hsearched.found f hf
    refine ⟨hfirst, hold, fun M' backend' device' hdevice' => ?_⟩
    rw [verifyPowOn_eq hdevice', verifyPow_agree (M'.product device') (M.product device), hfirst.passes]

/-- The plain product, added from left to right in two's complement. -/
def plainFit (z : ℤ) : ℤ := (z + 2 ^ 31) % 2 ^ 32 - 2 ^ 31

theorem plainFit_int32 (z : ℤ) (hlow : -2 ^ 31 ≤ z) (hhigh : z < 2 ^ 31) : plainFit z = z := by
  unfold plainFit
  rw [Int.emod_eq_of_lt (by omega) (by omega)]
  omega

theorem plain_order {n : ℕ} (_i _j : Fin n) : (Accum.Tree.ofList (List.finRange n)).leaves.Perm (List.finRange n) := by
  rw [Accum.Tree.leaves_ofList]

def plainBackend (n : ℕ) : Backend n := ⟨fun _ _ => Accum.Tree.ofList (List.finRange n), plainFit, plain_order, plainFit_int32⟩

def sampleTemplate : Header :=
  .anchor ⟨0, genesisParentHash, genesisParentHash, genesisParentHash, genesisParentHash, genesisParentHash,
    genesisParentHash, 5, 0⟩

def sampleCrypto : Crypto := ⟨fun _ => genesisParentHash, fun _ _ _ => true⟩

def sampleXof : Xof := fun _ n => FixedBytes.zero n

/-- A machine with a processor only. -/
def sampleMachine : Machine := ⟨false, true, false, fun _ => plainBackend matrixDim⟩

/-- The event is set after the third answer. -/
def sampleStop (k : ℕ) : Bool := decide (3 ≤ k)

theorem mine_first_sample :
    (∀ e, resolveBackend sampleMachine "auto" = .error e →
      mine sampleCrypto sampleXof sampleMachine sampleStop sampleTemplate genesisParentHash "auto" 3 (some 9) = .error e) ∧
    ∀ device, resolveBackend sampleMachine "auto" = .ok device →
      ∃ r asked, mine sampleCrypto sampleXof sampleMachine sampleStop sampleTemplate genesisParentHash "auto" 3 (some 9) =
          .ok (r, asked) ∧
        (∀ f, r = some f →
          f.IsFirst sampleCrypto sampleXof sampleMachine device sampleTemplate genesisParentHash (some 9) 3 0 ∧
          NeverSet sampleStop asked ∧ ∀ M' backend' device', resolveBackend M' backend' = .ok device' →
            verifyPowOn sampleCrypto sampleXof M' backend' f.header genesisParentHash = .ok true) ∧
        (r = none → SeenSet sampleStop asked ∨
          NeverSet sampleStop asked ∧
            Exhausted sampleCrypto sampleXof sampleMachine device sampleTemplate genesisParentHash (some 9) 3) :=
  mine_first sampleMachine "auto" rfl (by decide) (by simp [u64Max])

end Pow

end TensorPow
