import Mathlib

/-!
# Sparse Merkle trees

A tree of a given height over keys below `2 ^ height`, each subtree hashed with its
depth; the hash of a subtree without keys depends on its depth alone. A subtree is given
by the number of levels below it and the prefix its keys share.

* `Input`: what is hashed. `top` is what the root of a subtree is the hash of, `root` its
  hash.
* `root_inj`: if hashing is injective on what two trees hash, one root means one map.
* `walk`: the root a list of siblings leads to. `walk_root`: from the siblings of the tree
  to the root of the tree; `walk_sound`: whatever leads to the root of the tree starts at
  one of its subtrees.
-/

namespace Sparse

/-- What is hashed: a leaf, an inner node, an empty subtree. -/
inductive Input (V D : Type) where
  | leaf (key : ℕ) (value : V)
  | node (depth : ℕ) (left right : D)
  | empty (depth : ℕ)

variable {V D : Type}

/-- The value of a key. -/
def get (items : List (ℕ × V)) (k : ℕ) : Option V := (items.find? fun x => x.1 = k).map Prod.snd

/-- Some key has the prefix. -/
def Occupied (items : List (ℕ × V)) (levels pre : ℕ) : Prop := ∃ x ∈ items, x.1 / 2 ^ levels = pre

instance (items : List (ℕ × V)) (levels pre : ℕ) : Decidable (Occupied items levels pre) :=
  inferInstanceAs (Decidable (∃ x ∈ items, x.1 / 2 ^ levels = pre))

theorem get_eq_none {items : List (ℕ × V)} {k : ℕ} : get items k = none ↔ ∀ x ∈ items, x.1 ≠ k := by
  unfold get
  rw [Option.map_eq_none_iff, List.find?_eq_none]
  simp only [decide_eq_true_eq]

theorem get_of_not_occupied {items : List (ℕ × V)} {levels k : ℕ} (h : ¬Occupied items levels (k / 2 ^ levels)) :
    get items k = none :=
  get_eq_none.2 fun x hx hk => h ⟨x, hx, by rw [hk]⟩

theorem occupied_of_get {items : List (ℕ × V)} {k : ℕ} {v : V} (h : get items k = some v) (levels : ℕ) :
    Occupied items levels (k / 2 ^ levels) := by
  by_contra hno
  rw [get_of_not_occupied hno] at h
  cases h

section Root

variable (digest : Input V D → D) (height : ℕ) (items : List (ℕ × V))

/-- What the root of a subtree is the hash of. -/
def top : ℕ → ℕ → Input V D
  | 0, pre =>
    match get items pre with
    | some v => .leaf pre v
    | none => .empty height
  | levels + 1, pre =>
    if Occupied items (levels + 1) pre then
      .node (height - (levels + 1)) (digest (top levels (2 * pre))) (digest (top levels (2 * pre + 1)))
    else .empty (height - (levels + 1))

/-- The hash of a subtree. -/
def root (levels pre : ℕ) : D := digest (top digest height items levels pre)

/-- The depth of a hashed subtree; leaves are at the bottom. -/
def Input.depth : Input V D → ℕ
  | .leaf _ _ => height
  | .node d _ _ => d
  | .empty d => d

theorem depth_top (levels pre : ℕ) : (top digest height items levels pre).depth height = height - levels := by
  cases levels with
  | zero =>
    unfold top
    split <;> rfl
  | succ levels =>
    unfold top
    split <;> rfl

theorem top_not_occupied {levels pre : ℕ} (h : ¬Occupied items levels pre) :
    top digest height items levels pre = .empty (height - levels) := by
  cases levels with
  | zero =>
    have hnone : get items pre = none := get_eq_none.2 fun x hx hk => h ⟨x, hx, by rw [hk, pow_zero, Nat.div_one]⟩
    rw [top, hnone, Nat.sub_zero]
  | succ levels => rw [top, if_neg h]

theorem top_eq_empty (levels k : ℕ) {d : ℕ} (h : top digest height items levels (k / 2 ^ levels) = .empty d) :
    get items k = none := by
  cases levels with
  | zero =>
    rw [pow_zero, Nat.div_one] at h
    unfold top at h
    split at h
    · cases h
    · assumption
  | succ levels =>
    unfold top at h
    split at h
    · cases h
    · exact get_of_not_occupied ‹_›

theorem top_eq_node {levels pre d : ℕ} {l r : D} (h : top digest height items levels pre = .node d l r) :
    ∃ below, levels = below + 1 ∧ l = root digest height items below (2 * pre) ∧
      r = root digest height items below (2 * pre + 1) := by
  cases levels with
  | zero =>
    unfold top at h
    split at h <;> cases h
  | succ below =>
    unfold top at h
    split at h
    · cases h
      exact ⟨below, rfl, rfl, rfl⟩
    · cases h

/-- An occupied subtree that is no leaf is an inner node over its halves. -/
theorem top_occupied {i pre : ℕ} (hi : i < height) (h : Occupied items (height - i) pre) :
    top digest height items (height - i) pre =
      .node i (root digest height items (height - (i + 1)) (2 * pre))
        (root digest height items (height - (i + 1)) (2 * pre + 1)) := by
  obtain ⟨below, hbelow⟩ : ∃ below, height - i = below + 1 := ⟨height - (i + 1), by omega⟩
  rw [hbelow] at h ⊢
  rw [top, if_pos h, show height - (below + 1) = i by omega, show height - (i + 1) = below by omega]
  rfl

theorem top_eq_leaf {levels pre k : ℕ} {v : V} (h : top digest height items levels pre = .leaf k v) :
    levels = 0 ∧ pre = k ∧ get items k = some v := by
  cases levels with
  | zero =>
    unfold top at h
    split at h
    · cases h
      exact ⟨rfl, rfl, ‹_›⟩
    · cases h
  | succ levels =>
    unfold top at h
    split at h <;> cases h

end Root

/-! ## Prefixes -/

/-- Bit `i` of a key, most significant bit first. -/
def keyBit (height k i : ℕ) : Bool := k.testBit (height - 1 - i)

/-- The prefix of a key grows by one bit from depth to depth. -/
theorem prefix_succ {height k i : ℕ} (hi : i < height) :
    k / 2 ^ (height - (i + 1)) = 2 * (k / 2 ^ (height - i)) + (keyBit height k i).toNat := by
  obtain ⟨e, rfl⟩ : ∃ e, height = e + (i + 1) := ⟨height - (i + 1), by omega⟩
  unfold keyBit
  rw [Nat.toNat_testBit, show e + (i + 1) - (i + 1) = e by omega, show e + (i + 1) - 1 - i = e by omega,
    show e + (i + 1) - i = e + 1 by omega, pow_succ, ← Nat.div_div_eq_div_mul]
  omega

section Injective

variable {digest : Input V D → D} {height : ℕ} {items items' : List (ℕ × V)} {U : Set (Input V D)}

/-- **A root determines the map** where hashing is injective. -/
theorem root_inj (hinj : Set.InjOn digest U) (hU : ∀ l ≤ height, ∀ p, top digest height items l p ∈ U)
    (hU' : ∀ l ≤ height, ∀ p, top digest height items' l p ∈ U) {levels : ℕ} (hle : levels ≤ height) {k : ℕ}
    (h : root digest height items levels (k / 2 ^ levels) = root digest height items' levels (k / 2 ^ levels)) :
    get items k = get items' k := by
  have htop := hinj (hU levels hle _) (hU' levels hle _) h
  induction levels with
  | zero =>
    rw [pow_zero, Nat.div_one] at htop
    cases hx : top digest height items 0 k with
    | leaf k' v =>
      obtain ⟨-, rfl, hget⟩ := top_eq_leaf digest height items hx
      obtain ⟨-, -, hget'⟩ := top_eq_leaf digest height items' (htop ▸ hx)
      rw [hget, hget']
    | node d l r =>
      obtain ⟨below, hlevels, -⟩ := top_eq_node digest height items hx
      cases hlevels
    | empty d =>
      have hget := top_eq_empty digest height items 0 k (by simpa using hx)
      have hget' := top_eq_empty digest height items' 0 k (by simpa using htop ▸ hx)
      rw [hget, hget']
  | succ levels ih =>
    cases hx : top digest height items (levels + 1) (k / 2 ^ (levels + 1)) with
    | leaf k' v =>
      obtain ⟨hlevels, -⟩ := top_eq_leaf digest height items hx
      cases hlevels
    | node d l r =>
      obtain ⟨below, hlevels, hl, hr⟩ := top_eq_node digest height items hx
      obtain ⟨below', hlevels', hl', hr'⟩ := top_eq_node digest height items' (htop ▸ hx)
      cases hlevels
      cases hlevels'
      -- the subtree that holds the key is one of the two
      have hchild : root digest height items levels (k / 2 ^ levels) = root digest height items' levels (k / 2 ^ levels) := by
        have hdiv : k / 2 ^ (levels + 1) = k / 2 ^ levels / 2 := by rw [pow_succ, Nat.div_div_eq_div_mul]
        rw [hdiv] at hl hr hl' hr'
        rcases Nat.mod_two_eq_zero_or_one (k / 2 ^ levels) with hmod | hmod
        · rw [show 2 * (k / 2 ^ levels / 2) = k / 2 ^ levels by omega] at hl hl'
          rw [← hl, ← hl']
        · rw [show 2 * (k / 2 ^ levels / 2) + 1 = k / 2 ^ levels by omega] at hr hr'
          rw [← hr, ← hr']
      exact ih (by omega) hchild (hinj (hU levels (by omega) _) (hU' levels (by omega) _) hchild)
    | empty d =>
      rw [top_eq_empty digest height items _ k hx, top_eq_empty digest height items' _ k (htop ▸ hx)]

end Injective

/-! ## Siblings -/

section Walk

variable (digest : Input V D → D) (height k : ℕ) (siblings : ℕ → D)

/-- The node above `x` at depth `i` on the path of a key. -/
def stepInput (i : ℕ) (x : D) : Input V D :=
  if keyBit height k i then .node i (siblings i) x else .node i x (siblings i)

/-- The root above a node at depth `i` on the path of a key. -/
def walk : ℕ → D → D
  | 0, x => x
  | i + 1, x => walk i (digest (stepInput height k siblings i x))

/-- What `walk` hashes. -/
def walkInputs : ℕ → D → List (Input V D)
  | 0, _ => []
  | i + 1, x => stepInput height k siblings i x :: walkInputs i (digest (stepInput height k siblings i x))

variable {digest height k siblings} {items : List (ℕ × V)} {U : Set (Input V D)}

theorem mem_walkInputs {b : Input V D} : ∀ {i : ℕ} {x : D}, b ∈ walkInputs digest height k siblings i x →
    ∃ j < i, ∃ l r, b = .node j l r
  | 0, x, h => by cases h
  | i + 1, x, h => by
    rcases List.mem_cons.1 h with rfl | h
    · unfold stepInput
      split
      · exact ⟨i, Nat.lt_succ_self i, _, _, rfl⟩
      · exact ⟨i, Nat.lt_succ_self i, _, _, rfl⟩
    · obtain ⟨j, hj, l, r, rfl⟩ := mem_walkInputs h
      exact ⟨j, by omega, l, r, rfl⟩

/-- The sibling of the path of a key below depth `i`. -/
def sibling (digest : Input V D → D) (height : ℕ) (items : List (ℕ × V)) (k i : ℕ) : D :=
  root digest height items (height - (i + 1)) (2 * (k / 2 ^ (height - i)) + (1 - (keyBit height k i).toNat))

/-- The siblings of an occupied path lead to the root of the tree. -/
theorem walk_root (hk : k < 2 ^ height) : ∀ {i : ℕ}, i ≤ height →
    (∀ j < i, siblings j = sibling digest height items k j) →
    (∀ j < i, Occupied items (height - j) (k / 2 ^ (height - j))) →
    walk digest height k siblings i (root digest height items (height - i) (k / 2 ^ (height - i))) =
      root digest height items height 0
  | 0, _, _, _ => by
    rw [walk, Nat.sub_zero, Nat.div_eq_of_lt hk]
  | i + 1, hi, hsib, hocc => by
    have hparent : stepInput height k siblings i
        (root digest height items (height - (i + 1)) (k / 2 ^ (height - (i + 1)))) =
        top digest height items (height - i) (k / 2 ^ (height - i)) := by
      have hs := hsib i (by omega)
      unfold sibling at hs
      rw [top_occupied digest height items (by omega) (hocc i (by omega)), prefix_succ (by omega), stepInput, hs]
      cases keyBit height k i <;> simp
    rw [walk, hparent]
    exact walk_root hk (by omega) (fun j hj => hsib j (by omega)) fun j hj => hocc j (by omega)

/-- **Whatever leads to the root starts in the tree**, if hashing is injective on the tree
and on the path. -/
theorem walk_sound (hinj : Set.InjOn digest U) (hU : ∀ l ≤ height, ∀ p, top digest height items l p ∈ U)
    (hk : k < 2 ^ height) : ∀ {i : ℕ} {x : D}, i ≤ height → (∀ b ∈ walkInputs digest height k siblings i x, b ∈ U) →
    walk digest height k siblings i x = root digest height items height 0 →
    x = root digest height items (height - i) (k / 2 ^ (height - i))
  | 0, x, _, _, h => by
    rw [Nat.sub_zero, Nat.div_eq_of_lt hk, ← h, walk]
  | i + 1, x, hi, hpath, h => by
    have hstep := walk_sound hinj hU hk (by omega) (fun b hb => hpath b (List.mem_cons_of_mem _ hb)) h
    have htop := (hinj (hpath _ List.mem_cons_self) (hU _ (Nat.sub_le _ _) _) hstep).symm
    unfold stepInput at htop
    rw [prefix_succ (by omega)]
    cases hbit : keyBit height k i with
    | false =>
      rw [hbit, if_neg (by decide)] at htop
      obtain ⟨below, hbelow, hleft, -⟩ := top_eq_node digest height items htop
      rw [hleft, show height - (i + 1) = below by omega]
      rfl
    | true =>
      rw [hbit, if_pos rfl] at htop
      obtain ⟨below, hbelow, -, hright⟩ := top_eq_node digest height items htop
      rw [hright, show height - (i + 1) = below by omega]
      rfl

/-- Siblings at two depths are different. -/
theorem sibling_ne (hinj : Set.InjOn digest U) (hU : ∀ l ≤ height, ∀ p, top digest height items l p ∈ U) {i j : ℕ}
    (hi : i < height) (hj : j < height) (hne : i ≠ j) :
    sibling digest height items k i ≠ sibling digest height items k j := by
  intro h
  have htop := congrArg (Input.depth height) (hinj (hU _ (Nat.sub_le _ _) _) (hU _ (Nat.sub_le _ _) _) h)
  rw [depth_top, depth_top] at htop
  omega

end Walk

end Sparse
