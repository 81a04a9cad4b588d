import TensorPow.Proof.Conservation
import TensorPow.Proof.Decode
import TensorPow.Proof.PowBinding

/-!
# A block hash binds the whole body

Hashing is free of collisions on the byte strings that two blocks make the code hash:
`merkleInputs`, `Fruit.hashInputs` and `Anchor.hashInputs` list them.

* `orderedMerkleRoot_inj`: an ordered Merkle root determines its items. A level of odd
  length ends in a tagged empty node, so the number of items is determined too.
* `blockHash_binds`: fruits with one hash are equal, and so are anchors of one kind.
-/

namespace TensorPow

open Wire Sorted

variable {C : Crypto} {domain : Byte} {U : Set Bytes}

/-! ## What an ordered Merkle root hashes -/

/-- The input of a leaf hash. -/
def leafInput (domain : Byte) (p : Bytes × ℕ) : Bytes := domain :: 0x00 :: (le 4 p.2 ++ le 4 p.1.length ++ p.1)

/-- The input of the hash that stands for a missing right node. -/
def emptyInput (domain : Byte) (level index : ℕ) : Bytes := domain :: 0x02 :: (le 2 level ++ le 4 index)

/-- The input of the hash of an inner node. -/
def nodeInput (domain : Byte) (level index : ℕ) (left right : Hash) : Bytes :=
  domain :: 0x01 :: (le 2 level ++ le 4 index ++ left.bytes ++ right.bytes)

variable (C domain) in
/-- What `merkleNextLevel` hashes. -/
def levelInputs (level : ℕ) : ℕ → List Hash → List Bytes
  | _, [] => []
  | index, [left] =>
    [emptyInput domain level index, nodeInput domain level index left (merkleEmpty C domain level index)]
  | index, left :: right :: rest => nodeInput domain level index left right :: levelInputs level (index + 1) rest

variable (C domain) in
/-- What `merkleClimb` hashes. -/
def climbInputs : ℕ → ℕ → List Hash → List Bytes
  | 0, _, _ => []
  | fuel + 1, level, nodes =>
    match nodes with
    | [] => []
    | [_] => []
    | nodes => levelInputs C domain level 0 nodes ++ climbInputs fuel (level + 1) (merkleNextLevel C domain level 0 nodes)

variable (C domain) in
/-- What `ordered_merkle_root` hashes. -/
def merkleInputs (items : List Bytes) : List Bytes :=
  if items = [] then [domain :: 0x02 :: le 4 0]
  else items.zipIdx.map (leafInput domain) ++
    climbInputs C domain items.length 0 (items.zipIdx.map fun p => merkleLeaf C domain p.2 p.1)

/-- A leaf, or an inner node below a level. -/
def Below (domain : Byte) (level : ℕ) (b : Bytes) : Prop :=
  (∃ p, b = leafInput domain p) ∨ ∃ k i l r, k < level ∧ k < 32 ∧ b = nodeInput domain k i l r

/-- The node is the hash of a known leaf or inner node below a level. -/
def Known (C : Crypto) (domain : Byte) (U : Set Bytes) (level : ℕ) (x : Hash) : Prop :=
  ∃ b ∈ U, Below domain level b ∧ C.hashBytes b = x

theorem emptyInput_not_below {level k i : ℕ} : ¬Below domain level (emptyInput domain k i) := by
  have htag : ∀ {t : Byte} {b c : Bytes}, t ≠ 0x02 → domain :: 0x02 :: b ≠ domain :: t :: c := by
    intro t b c ht h
    exact ht (List.cons.inj (List.cons.inj h).2).1.symm
  rintro (⟨p, h⟩ | ⟨k', i', l, r, -, -, h⟩)
  · exact htag (by decide) h
  · exact htag (by decide) h

theorem nodeInput_inj {k i k' i' : ℕ} {l r l' r' : Hash} (h : nodeInput domain k i l r = nodeInput domain k' i' l' r') :
    le 2 k = le 2 k' ∧ l = l' ∧ r = r' := by
  obtain ⟨h, hr⟩ := List.append_inj' (List.cons.inj (List.cons.inj h).2).2 (by simp)
  obtain ⟨h, hl⟩ := List.append_inj' h (by simp)
  obtain ⟨hk, -⟩ := List.append_inj' h (by simp)
  exact ⟨hk, FixedBytes.bytes_inj.1 hl, FixedBytes.bytes_inj.1 hr⟩

variable (C domain) in
theorem length_merkleNextLevel (level index : ℕ) : ∀ xs : List Hash,
    (merkleNextLevel C domain level index xs).length = (xs.length + 1) / 2
  | [] => rfl
  | [_] => by simp [merkleNextLevel]
  | _ :: _ :: rest => by
    rw [merkleNextLevel, List.length_cons, length_merkleNextLevel level (index + 1) rest, List.length_cons,
      List.length_cons]
    omega

/-- The nodes of the next level are hashes of inner nodes of this one. -/
theorem mem_merkleNextLevel {level : ℕ} : ∀ {index : ℕ} {xs : List Hash} {x : Hash},
    x ∈ merkleNextLevel C domain level index xs →
      ∃ i l r, nodeInput domain level i l r ∈ levelInputs C domain level index xs ∧
        C.hashBytes (nodeInput domain level i l r) = x
  | index, [left], x, h => by
    refine ⟨index, left, merkleEmpty C domain level index, List.mem_cons_of_mem _ List.mem_cons_self, ?_⟩
    exact (List.mem_singleton.1 h).symm
  | index, left :: right :: rest, x, h => by
    rcases List.mem_cons.1 h with rfl | h
    · exact ⟨index, left, right, List.mem_cons_self, rfl⟩
    · obtain ⟨i, l, r, hmem, hx⟩ := mem_merkleNextLevel h
      exact ⟨i, l, r, List.mem_cons_of_mem _ hmem, hx⟩

/-- **One level up is injective**: the empty node of an odd level is no leaf and no inner
node. -/
theorem merkleNextLevel_inj (hinj : Set.InjOn C.hashBytes U) {level : ℕ} : ∀ {index : ℕ} {xs ys : List Hash},
    (∀ x ∈ xs, Known C domain U level x) → (∀ y ∈ ys, Known C domain U level y) →
    (∀ b ∈ levelInputs C domain level index xs, b ∈ U) → (∀ b ∈ levelInputs C domain level index ys, b ∈ U) →
    merkleNextLevel C domain level index xs = merkleNextLevel C domain level index ys → xs = ys
  | _, [], [], _, _, _, _, _ => rfl
  | _, [], [_], _, _, _, _, h => by cases h
  | _, [], _ :: _ :: _, _, _, _, _, h => by cases h
  | _, [_], [], _, _, _, _, h => by cases h
  | _, _ :: _ :: _, [], _, _, _, _, h => by cases h
  | index, [a], [c], _, _, hxs, hys, h => by
    have hnode := hinj (hxs _ (List.mem_cons_of_mem _ List.mem_cons_self))
      (hys _ (List.mem_cons_of_mem _ List.mem_cons_self)) (List.cons.inj h).1
    rw [(nodeInput_inj hnode).2.1]
  | index, [a], c :: d :: rest, _, hy, hxs, hys, h => by
    have hnode := hinj (hxs _ (List.mem_cons_of_mem _ List.mem_cons_self)) (hys _ List.mem_cons_self)
      (List.cons.inj h).1
    -- the missing node would be the hash of a known leaf or inner node
    obtain ⟨b, hb, hbelow, hhash⟩ := hy d (by simp)
    have hempty := hinj (hxs _ List.mem_cons_self) hb ((nodeInput_inj hnode).2.2.trans hhash.symm)
    exact absurd (hempty ▸ hbelow) emptyInput_not_below
  | index, a :: b :: rest, [c], hx, _, hxs, hys, h => by
    have hnode := hinj (hxs _ List.mem_cons_self) (hys _ (List.mem_cons_of_mem _ List.mem_cons_self))
      (List.cons.inj h).1
    obtain ⟨e, he, hbelow, hhash⟩ := hx b (by simp)
    have hempty := hinj (hys _ List.mem_cons_self) he ((nodeInput_inj hnode).2.2.symm.trans hhash.symm)
    exact absurd (hempty ▸ hbelow) emptyInput_not_below
  | index, a :: b :: rest, c :: d :: rest', hx, hy, hxs, hys, h => by
    obtain ⟨hhead, htail⟩ := List.cons.inj h
    have hnode := hinj (hxs _ List.mem_cons_self) (hys _ List.mem_cons_self) hhead
    obtain ⟨-, hac, hbd⟩ := nodeInput_inj hnode
    rw [hac, hbd, merkleNextLevel_inj hinj (fun x h => hx x (by simp [h])) (fun y h => hy y (by simp [h]))
      (fun b h => hxs b (List.mem_cons_of_mem _ h)) (fun b h => hys b (List.mem_cons_of_mem _ h)) htail]

theorem merkleClimb_singleton (fuel level : ℕ) (x : Hash) : merkleClimb C domain fuel level [x] = x := by
  cases fuel <;> rfl

variable (C domain) in
theorem merkleClimb_step (fuel level : ℕ) {xs : List Hash} (h : 2 ≤ xs.length) :
    merkleClimb C domain (fuel + 1) level xs =
      merkleClimb C domain fuel (level + 1) (merkleNextLevel C domain level 0 xs) ∧
    climbInputs C domain (fuel + 1) level xs =
      levelInputs C domain level 0 xs ++ climbInputs C domain fuel (level + 1) (merkleNextLevel C domain level 0 xs) := by
  match xs, h with
  | _ :: _ :: _, _ => exact ⟨rfl, rfl⟩

variable (C domain) in
/-- A level of at most `2 ^ (32 - level)` nodes, not all of them the root, halves. -/
theorem length_next_le {level : ℕ} (index : ℕ) {xs : List Hash} (h : 2 ≤ xs.length) (hle : xs.length ≤ 2 ^ (32 - level)) :
    level < 32 ∧ (merkleNextLevel C domain level index xs).length ≤ 2 ^ (32 - (level + 1)) := by
  have hlevel : level < 32 := by
    by_contra hge
    rw [show 32 - level = 0 by omega] at hle
    omega
  refine ⟨hlevel, ?_⟩
  rw [length_merkleNextLevel]
  rw [show 32 - level = 32 - (level + 1) + 1 by omega, pow_succ] at hle
  omega

variable (C domain) in
/-- The root of two or more nodes is the hash of an inner node of their level or above. -/
theorem merkleClimb_top : ∀ (fuel level : ℕ) (xs : List Hash), 2 ≤ xs.length → xs.length ≤ fuel →
    xs.length ≤ 2 ^ (32 - level) → ∃ k i l r, level ≤ k ∧ k < 32 ∧
      nodeInput domain k i l r ∈ climbInputs C domain fuel level xs ∧
      C.hashBytes (nodeInput domain k i l r) = merkleClimb C domain fuel level xs
  | 0, level, xs, h, hfuel, _ => by omega
  | fuel + 1, level, xs, h, hfuel, hle => by
    obtain ⟨hroot, hinputs⟩ := merkleClimb_step C domain fuel level h
    obtain ⟨hlevel, hnext⟩ := length_next_le C domain 0 h hle
    have hlen := length_merkleNextLevel C domain level 0 xs
    rw [hroot, hinputs]
    by_cases htwo : 2 ≤ (merkleNextLevel C domain level 0 xs).length
    · obtain ⟨k, i, l, r, hk, hk', hmem, hhash⟩ := merkleClimb_top fuel (level + 1) _ htwo (by omega) hnext
      exact ⟨k, i, l, r, by omega, hk', List.mem_append_right _ hmem, hhash⟩
    · obtain ⟨x, hx⟩ := List.length_eq_one_iff.1 (show (merkleNextLevel C domain level 0 xs).length = 1 by omega)
      obtain ⟨i, l, r, hmem, hhash⟩ := mem_merkleNextLevel (hx ▸ List.mem_singleton_self x)
      refine ⟨level, i, l, r, le_rfl, hlevel, List.mem_append_left _ hmem, ?_⟩
      rw [hx, merkleClimb_singleton, hhash]

/-- A single node is not the root of two or more nodes of its level. -/
theorem known_ne_top (hinj : Set.InjOn C.hashBytes U) {fuel level : ℕ} {x : Hash} {ys : List Hash}
    (hx : Known C domain U level x) (h : 2 ≤ ys.length) (hfuel : ys.length ≤ fuel) (hle : ys.length ≤ 2 ^ (32 - level))
    (hys : ∀ b ∈ climbInputs C domain fuel level ys, b ∈ U) : x ≠ merkleClimb C domain fuel level ys := by
  rintro rfl
  obtain ⟨k, i, l, r, hk, hk', hmem, hhash⟩ := merkleClimb_top C domain fuel level ys h hfuel hle
  obtain ⟨b, hb, hbelow, hb'⟩ := hx
  have heq := hinj hb (hys _ hmem) (hb'.trans hhash.symm)
  rcases hbelow with ⟨p, rfl⟩ | ⟨k', i', l', r', hlt, hk'', rfl⟩
  · exact absurd (List.cons.inj (List.cons.inj heq).2).1 (by decide)
  · have := le_inj (by omega) (by omega) (nodeInput_inj heq).1
    omega

/-- **A root determines its level**, whatever the two lengths are. -/
theorem merkleClimb_inj (hinj : Set.InjOn C.hashBytes U) : ∀ {fuel fuel' level : ℕ} {xs ys : List Hash},
    xs ≠ [] → ys ≠ [] → xs.length ≤ fuel → ys.length ≤ fuel' → xs.length ≤ 2 ^ (32 - level) →
    ys.length ≤ 2 ^ (32 - level) → (∀ x ∈ xs, Known C domain U level x) → (∀ y ∈ ys, Known C domain U level y) →
    (∀ b ∈ climbInputs C domain fuel level xs, b ∈ U) → (∀ b ∈ climbInputs C domain fuel' level ys, b ∈ U) →
    merkleClimb C domain fuel level xs = merkleClimb C domain fuel' level ys → xs = ys := by
  intro fuel
  induction fuel with
  | zero =>
    intro fuel' level xs ys hxs _ hfuel
    exact absurd (List.length_eq_zero_iff.1 (by omega)) hxs
  | succ fuel ih =>
    intro fuel' level xs ys hxs hys hfuel hfuel' hle hle' hx hy hxU hyU h
    have hxs' := List.length_pos_iff.2 hxs
    have hys' := List.length_pos_iff.2 hys
    by_cases hx₂ : 2 ≤ xs.length
    · by_cases hy₂ : 2 ≤ ys.length
      · obtain ⟨fuel', rfl⟩ : ∃ f, fuel' = f + 1 := ⟨fuel' - 1, by omega⟩
        obtain ⟨hrx, hix⟩ := merkleClimb_step C domain fuel level hx₂
        obtain ⟨hry, hiy⟩ := merkleClimb_step C domain fuel' level hy₂
        rw [hrx, hry] at h
        rw [hix] at hxU
        rw [hiy] at hyU
        obtain ⟨hlevel, hnx⟩ := length_next_le C domain 0 hx₂ hle
        obtain ⟨-, hny⟩ := length_next_le C domain 0 hy₂ hle'
        have hlenx := length_merkleNextLevel C domain level 0 xs
        have hleny := length_merkleNextLevel C domain level 0 ys
        -- a node above is the hash of a string in `U` whose level is higher
        have hknown : ∀ {zs : List Hash}, (∀ b ∈ levelInputs C domain level 0 zs, b ∈ U) →
            ∀ z ∈ merkleNextLevel C domain level 0 zs, Known C domain U (level + 1) z := by
          intro zs hzs z hz
          obtain ⟨i, l, r, hmem, hhash⟩ := mem_merkleNextLevel hz
          exact ⟨_, hzs _ hmem, .inr ⟨level, i, l, r, by omega, hlevel, rfl⟩, hhash⟩
        have hne : ∀ {zs : List Hash}, 0 < zs.length → zs ≠ [] := fun h => List.length_pos_iff.1 h
        have hnext := ih (hne (by omega)) (hne (by omega)) (by omega) (by omega) hnx hny
          (hknown fun b hb => hxU b (List.mem_append_left _ hb))
          (hknown fun b hb => hyU b (List.mem_append_left _ hb))
          (fun b hb => hxU b (List.mem_append_right _ hb)) (fun b hb => hyU b (List.mem_append_right _ hb)) h
        exact merkleNextLevel_inj hinj hx hy (fun b hb => hxU b (List.mem_append_left _ hb))
          (fun b hb => hyU b (List.mem_append_left _ hb)) hnext
      · -- one side is done: an item is no node of a higher level
        obtain ⟨y, rfl⟩ := List.length_eq_one_iff.1 (show ys.length = 1 by omega)
        rw [merkleClimb_singleton] at h
        exact absurd h.symm (known_ne_top hinj (hy y (List.mem_singleton_self y)) hx₂ hfuel hle hxU)
    · obtain ⟨x, rfl⟩ := List.length_eq_one_iff.1 (show xs.length = 1 by omega)
      rw [merkleClimb_singleton] at h
      by_cases hy₂ : 2 ≤ ys.length
      · exact absurd h (known_ne_top hinj (hx x (List.mem_singleton_self x)) hy₂ hfuel' hle' hyU)
      · obtain ⟨y, rfl⟩ := List.length_eq_one_iff.1 (show ys.length = 1 by omega)
        rw [merkleClimb_singleton] at h
        rw [h]

/-- The leaves determine the items. -/
theorem leaves_inj (hinj : Set.InjOn C.hashBytes U) : ∀ {n : ℕ} {items items' : List Bytes},
    (∀ b ∈ (items.zipIdx n).map (leafInput domain), b ∈ U) → (∀ b ∈ (items'.zipIdx n).map (leafInput domain), b ∈ U) →
    ((items.zipIdx n).map fun p => merkleLeaf C domain p.2 p.1) =
      ((items'.zipIdx n).map fun p => merkleLeaf C domain p.2 p.1) → items = items'
  | _, [], [], _, _, _ => rfl
  | _, [], _ :: _, _, _, h => by cases h
  | _, _ :: _, [], _, _, h => by cases h
  | n, a :: items, b :: items', hU, hU', h => by
    simp only [List.zipIdx_cons, List.map_cons] at h hU hU'
    obtain ⟨hhead, htail⟩ := List.cons.inj h
    have hleaf := hinj (hU _ List.mem_cons_self) (hU' _ List.mem_cons_self) hhead
    have hbytes := (List.cons.inj (List.cons.inj hleaf).2).2
    simp only [List.append_assoc] at hbytes
    obtain ⟨hlen, hitem⟩ := List.append_inj (List.append_inj hbytes (by simp)).2 (by simp)
    rw [hitem, leaves_inj hinj (fun b hb => hU b (List.mem_cons_of_mem _ hb))
      (fun b hb => hU' b (List.mem_cons_of_mem _ hb)) htail]

theorem merkleInputs_nil : merkleInputs C domain [] = [domain :: 0x02 :: le 4 0] := if_pos rfl

theorem merkleInputs_of_ne {items : List Bytes} (h : items ≠ []) :
    merkleInputs C domain items = items.zipIdx.map (leafInput domain) ++
      climbInputs C domain items.length 0 (items.zipIdx.map fun p => merkleLeaf C domain p.2 p.1) := if_neg h

/-- What a root is the hash of. -/
theorem orderedMerkleRoot_ok {items : List Bytes} {reject : Bool} {h : Hash}
    (hroot : orderedMerkleRoot C domain items reject = .ok h) :
    items = [] ∧ h = C.hashBytes (domain :: 0x02 :: le 4 0) ∨
    items ≠ [] ∧ items.length ≤ 2 ^ 32 ∧
      h = merkleClimb C domain items.length 0 (items.zipIdx.map fun p => merkleLeaf C domain p.2 p.1) := by
  unfold orderedMerkleRoot at hroot
  simp only [Exn.bind_ok] at hroot
  obtain ⟨-, -, -, -, hroot⟩ := hroot
  split at hroot
  · rename_i hnil
    exact .inl ⟨hnil, (Exn.pure_ok.1 hroot).symm⟩
  · rename_i hne
    simp only [Exn.bind_ok, Exn.ensure_ok, Exn.pure_ok] at hroot
    obtain ⟨-, hlen, rfl⟩ := hroot
    exact .inr ⟨hne, by omega, rfl⟩

/-- The root of some items is not the root of none. -/
theorem merkleClimb_ne_empty (hinj : Set.InjOn C.hashBytes U) {items : List Bytes} (hne : items ≠ [])
    (hlen : items.length ≤ 2 ^ 32) (hempty : domain :: 0x02 :: le 4 0 ∈ U)
    (hU : ∀ b ∈ merkleInputs C domain items, b ∈ U) :
    merkleClimb C domain items.length 0 (items.zipIdx.map fun p => merkleLeaf C domain p.2 p.1) ≠
      C.hashBytes (domain :: 0x02 :: le 4 0) := by
  intro h
  rw [merkleInputs_of_ne hne] at hU
  match items, hne with
  | [a], _ =>
    have hleaf := hinj (hU _ (List.mem_append_left _ List.mem_cons_self)) hempty h
    exact absurd (List.cons.inj (List.cons.inj hleaf).2).1 (by decide)
  | a :: b :: rest, _ =>
    obtain ⟨k, i, l, r, -, -, hmem, hhash⟩ := merkleClimb_top C domain (a :: b :: rest).length 0
      ((a :: b :: rest).zipIdx.map fun p => merkleLeaf C domain p.2 p.1) (by simp) (by simp) (by simpa using hlen)
    have hnode := hinj (hU _ (List.mem_append_right _ hmem)) hempty (hhash.trans h)
    exact absurd (List.cons.inj (List.cons.inj hnode).2).1 (by decide)

/-- **An ordered Merkle root determines its items.** -/
theorem orderedMerkleRoot_inj (hinj : Set.InjOn C.hashBytes U) {items items' : List Bytes} {reject reject' : Bool}
    {h : Hash} (hroot : orderedMerkleRoot C domain items reject = .ok h)
    (hroot' : orderedMerkleRoot C domain items' reject' = .ok h)
    (hU : ∀ b ∈ merkleInputs C domain items, b ∈ U) (hU' : ∀ b ∈ merkleInputs C domain items', b ∈ U) :
    items = items' := by
  rcases orderedMerkleRoot_ok hroot with ⟨rfl, rfl⟩ | ⟨hne, hlen, rfl⟩ <;>
    rcases orderedMerkleRoot_ok hroot' with ⟨rfl, heq⟩ | ⟨hne', hlen', heq⟩
  · rfl
  · exact absurd heq.symm (merkleClimb_ne_empty hinj hne' hlen' (hU _ (by simp [merkleInputs_nil])) hU')
  · exact absurd heq (merkleClimb_ne_empty hinj hne hlen (hU' _ (by simp [merkleInputs_nil])) hU)
  · rw [merkleInputs_of_ne hne] at hU
    rw [merkleInputs_of_ne hne'] at hU'
    have hknown : ∀ {l : List Bytes}, (∀ b ∈ l.zipIdx.map (leafInput domain), b ∈ U) →
        ∀ x ∈ l.zipIdx.map fun p => merkleLeaf C domain p.2 p.1, Known C domain U 0 x := by
      intro l hl x hx
      obtain ⟨p, hp, rfl⟩ := List.mem_map.1 hx
      exact ⟨_, hl _ (List.mem_map.2 ⟨p, hp, rfl⟩), .inl ⟨p, rfl⟩, rfl⟩
    have hleaves := merkleClimb_inj hinj (by simpa using hne) (by simpa using hne') (by simp) (by simp)
      (by simpa using hlen) (by simpa using hlen') (hknown fun b hb => hU b (List.mem_append_left _ hb))
      (hknown fun b hb => hU' b (List.mem_append_left _ hb)) (fun b hb => hU b (List.mem_append_right _ hb))
      (fun b hb => hU' b (List.mem_append_right _ hb)) heq
    exact leaves_inj hinj (fun b hb => hU b (List.mem_append_left _ hb))
      (fun b hb => hU' b (List.mem_append_left _ hb)) hleaves

/-! ## Encodings -/

theorem FruitHeader.reads_fields (x : FruitHeader) : Reads FruitHeader.readFields x.toFruitHeaderFields x.serialize := by
  obtain ⟨hversion, hsig, hbitmap, htime, hshard, hnonce⟩ := x.bounds
  unfold FruitHeader.serialize
  simp only [List.append_assoc]
  unfold formatEpoch at hversion
  unfold sigTypeEd25519Bit at hsig
  unfold parentBitmapMaxBytes at hbitmap
  refine (Reads.uint _ (by omega)).bind ((Reads.uint _ (by omega)).bind ?_)
  refine (Reads.fixed _ _).bind ((Reads.uint _ (by omega)).bind ((Reads.take _ rfl).bind ?_))
  refine (Reads.fixed _ _).bind ((Reads.fixed _ _).bind ((Reads.uint _ (lt_of_le_u64 htime)).bind ?_))
  rw [← List.append_nil (le 8 x.nonce)]
  exact (Reads.uint _ (lt_of_le_u32 hshard.1)).bind ((Reads.uint _ (lt_of_le_u64 hnonce)).bind (Reads.pure _))

theorem FruitHeader.serialize_inj {h h' : FruitHeader} (heq : h.serialize = h'.serialize) : h = h' := by
  have hfields := h.reads_fields.inj (heq ▸ h'.reads_fields)
  obtain ⟨f, hf⟩ := h
  obtain ⟨f', hf'⟩ := h'
  cases hfields
  rfl

/-- What the checks of an anchor header give. -/
theorem AnchorHeader.bounds (h : AnchorHeader) : h.version ≤ u16Max ∧ h.timestampMs ≤ u64Max ∧ h.nonce ≤ u64Max := by
  have hvalid := h.valid
  simp only [AnchorHeaderFields.postInit, requireFormatEpoch, requireUint, Exn.bind_ok, Exn.ensure_ok] at hvalid
  obtain ⟨-, ⟨-, hversion, -⟩, -, htime, hnonce⟩ := hvalid
  exact ⟨hversion, htime, hnonce⟩

theorem AnchorHeader.reads_fields (x : AnchorHeader) :
    Reads AnchorHeader.readFields x.toAnchorHeaderFields x.serialize := by
  obtain ⟨hversion, htime, hnonce⟩ := x.bounds
  unfold AnchorHeader.serialize
  simp only [List.append_assoc]
  refine (Reads.uint _ (lt_of_le_u16 hversion)).bind ((Reads.fixed _ _).bind ((Reads.fixed _ _).bind ?_))
  refine (Reads.fixed _ _).bind ((Reads.fixed _ _).bind ((Reads.fixed _ _).bind ((Reads.fixed _ _).bind ?_)))
  rw [← List.append_nil (le 8 x.nonce)]
  exact (Reads.uint _ (lt_of_le_u64 htime)).bind ((Reads.uint _ (lt_of_le_u64 hnonce)).bind (Reads.pure _))

theorem AnchorHeader.serialize_inj {h h' : AnchorHeader} (heq : h.serialize = h'.serialize) : h = h' := by
  have hfields := h.reads_fields.inj (heq ▸ h'.reads_fields)
  obtain ⟨f, hf⟩ := h
  obtain ⟨f', hf'⟩ := h'
  cases hfields
  rfl

/-- What the checks of a fee-floor entry give. -/
theorem FeeFloorEntry.bounds (e : FeeFloorEntry) :
    (e.shardId < 256 ^ 4 ∧ shardDepth e.shardId ≤ shardMaxDepth) ∧ e.floorMatomsPerKb < 256 ^ 8 := by
  have hvalid := e.valid
  simp only [FeeFloorFields.postInit, requireShardId, requireUint, Exn.bind_ok, Exn.ensure_ok] at hvalid
  obtain ⟨-, ⟨-, hshard, -, hdepth, -⟩, hfloor⟩ := hvalid
  exact ⟨⟨lt_of_le_u32 hshard, hdepth⟩, lt_of_le_u64 hfloor⟩

theorem FeeFloorEntry.serialize_injective : Function.Injective FeeFloorEntry.serialize := by
  intro e e' h
  obtain ⟨⟨hs, -⟩, hf⟩ := e.bounds
  obtain ⟨⟨hs', -⟩, hf'⟩ := e'.bounds
  obtain ⟨hshard, hfloor⟩ := List.append_inj h (by simp)
  obtain ⟨⟨s, f⟩, hvalid⟩ := e
  obtain ⟨⟨s', f'⟩, hvalid'⟩ := e'
  cases le_inj hs hs' hshard
  cases le_inj hf hf' hfloor
  rfl

theorem Output.toBytes_injective : Function.Injective Output.toBytes := by
  intro o o' h
  exact (reads_output o).inj (h ▸ reads_output o')

/-- Lists with one image under a map that is injective on their elements are equal. -/
theorem eq_of_map_eq {α β : Type} {f : α → β} {S : Set α} (hf : S.InjOn f) : ∀ {l l' : List α},
    (∀ a ∈ l, a ∈ S) → (∀ a ∈ l', a ∈ S) → l.map f = l'.map f → l = l'
  | [], [], _, _, _ => rfl
  | a :: l, b :: l', hl, hl', h => by
    obtain ⟨hab, htail⟩ := List.cons.inj h
    rw [hf (hl a List.mem_cons_self) (hl' b List.mem_cons_self) hab,
      eq_of_map_eq hf (fun x hx => hl x (List.mem_cons_of_mem _ hx)) (fun x hx => hl' x (List.mem_cons_of_mem _ hx)) htail]

/-! ## Fruits -/

/-- What the constructor and `block_hash` of a fruit hash. -/
def Fruit.hashInputs (f : Fruit C) : List Bytes :=
  (domainFruitHeader :: f.header.serialize) :: f.transactions.map (domainTxId :: ·) ++
    merkleInputs C domainTxMerkleRoot (f.transactions.map fun tx => (C.domainHash domainTxId tx).bytes)

/-- Fruits with one hash are equal. -/
theorem Fruit.blockHash_inj (f f' : Fruit C)
    (hinj : Set.InjOn C.hashBytes {b | b ∈ f.hashInputs ∨ b ∈ f'.hashInputs}) (h : f.blockHash = f'.blockHash) :
    f = f' := by
  have hroot : ∀ g : Fruit C, txMerkleRoot C g.transactions = .ok g.header.txMerkleRoot := by
    intro g
    have hvalid := g.valid
    simp only [FruitFields.postInit, Exn.bind_ok, Exn.ensure_ok] at hvalid
    obtain ⟨-, -, -, -, -, -, root, hroot, rfl⟩ := hvalid
    exact hroot
  have hheader : f.header = f'.header := by
    have := hinj (.inl List.mem_cons_self) (.inr List.mem_cons_self) h
    exact FruitHeader.serialize_inj (List.cons.inj this).2
  have hmem : ∀ g : Fruit C, ∀ tx ∈ g.transactions, domainTxId :: tx ∈ g.hashInputs := by
    intro g tx htx
    exact List.mem_append_left _ (List.mem_cons_of_mem _ (List.mem_map.2 ⟨tx, htx, rfl⟩))
  have hids := orderedMerkleRoot_inj hinj (hroot f) (by rw [hheader]; exact hroot f')
    (fun b hb => .inl (List.mem_append_right _ hb)) (fun b hb => .inr (List.mem_append_right _ hb))
  have htxs : f.transactions = f'.transactions := by
    refine eq_of_map_eq (S := {tx | tx ∈ f.transactions ∨ tx ∈ f'.transactions}) ?_ (fun tx => .inl) (fun tx => .inr) hids
    intro tx htx tx' htx' heq
    have := hinj (htx.imp (hmem f tx) (hmem f' tx)) (htx'.imp (hmem f tx') (hmem f' tx')) (FixedBytes.bytes_inj.1 heq)
    exact (List.cons.inj this).2
  obtain ⟨⟨header, txs⟩, hvalid⟩ := f
  obtain ⟨⟨header', txs'⟩, hvalid'⟩ := f'
  cases hheader
  cases htxs
  rfl

/-! ## Anchors -/

/-- What the constructor and `block_hash` of an anchor hash. -/
def Anchor.hashInputs (a : Anchor C) : List Bytes :=
  (if a.isGenesis then a.layout else domainAnchorHeader :: a.header.serialize) ::
    (domainShardTree :: a.shardTreeBytes) ::
    merkleInputs C domainFruitSetRoot (a.coveredFruitHashes.map FixedBytes.bytes) ++
    merkleInputs C domainParentCandidateRoot (a.parentCandidateHashes.map FixedBytes.bytes) ++
    merkleInputs C domainFeeFloor (a.feeFloorEntries.map FeeFloorEntry.serialize) ++
    merkleInputs C domainAnchorRewardRoot (a.anchorRewardOutputs.map Output.toBytes)

theorem Anchor.checkRoots_ok (a : Anchor C) : a.checkRoots C = .ok () := by
  have hvalid := a.valid
  unfold AnchorFields.postInit at hvalid
  simp only [Exn.bind_ok] at hvalid
  obtain ⟨-, -, -, -, -, -, -, -, -, -, -, -, -, -, hvalid⟩ := hvalid
  split at hvalid
  · obtain ⟨-, -, hroots⟩ := Exn.bind_ok.1 hvalid
    exact hroots
  · obtain ⟨-, -, hroots⟩ := Exn.bind_ok.1 hvalid
    exact hroots

/-- The constructor of an anchor has compared its roots with the header. -/
theorem Anchor.roots (a : Anchor C) :
    orderedMerkleRoot C domainFruitSetRoot (a.coveredFruitHashes.map FixedBytes.bytes) true = .ok a.header.fruitSetRoot ∧
    orderedMerkleRoot C domainParentCandidateRoot (a.parentCandidateHashes.map FixedBytes.bytes) true =
      .ok a.header.parentCandidateRoot ∧
    C.domainHash domainShardTree a.shardTreeBytes = a.header.shardTreeStateRoot ∧
    orderedMerkleRoot C domainFeeFloor (a.feeFloorEntries.map FeeFloorEntry.serialize) false =
      .ok a.header.feeFloorSetRoot ∧
    orderedMerkleRoot C domainAnchorRewardRoot (a.anchorRewardOutputs.map Output.toBytes) false =
      .ok a.header.anchorRewardRoot := by
  have hroots := a.checkRoots_ok
  unfold AnchorFields.checkRoots at hroots
  simp only [Exn.bind_ok, Exn.ensure_ok] at hroots
  obtain ⟨r₁, h₁, -, rfl, r₂, h₂, -, rfl, -, htree, r₃, h₃, -, rfl, r₄, h₄, rfl⟩ := hroots
  exact ⟨h₁, h₂, htree, h₃, h₄⟩

/-- Anchors with one header have the same body, up to the genesis commitment. -/
theorem Anchor.body_eq {a a' : Anchor C}
    (hinj : Set.InjOn C.hashBytes {b | b ∈ a.hashInputs ∨ b ∈ a'.hashInputs}) (h : a.header = a'.header) :
    a.coveredFruitHashes = a'.coveredFruitHashes ∧ a.parentCandidateHashes = a'.parentCandidateHashes ∧
      a.shardTreeBytes = a'.shardTreeBytes ∧ a.feeFloorEntries = a'.feeFloorEntries ∧
      a.anchorRewardOutputs = a'.anchorRewardOutputs := by
  obtain ⟨hfruits, hcandidates, htree, hfloors, hrewards⟩ := a.roots
  obtain ⟨hfruits', hcandidates', htree', hfloors', hrewards'⟩ := a'.roots
  rw [← h] at hfruits' hcandidates' htree' hfloors' hrewards'
  refine ⟨?_, ?_, ?_, ?_, ?_⟩
  · exact FixedBytes.bytes_injective.list_map (orderedMerkleRoot_inj hinj hfruits hfruits'
      (fun b hb => .inl (by simp [hashInputs, hb])) fun b hb => .inr (by simp [hashInputs, hb]))
  · exact FixedBytes.bytes_injective.list_map (orderedMerkleRoot_inj hinj hcandidates hcandidates'
      (fun b hb => .inl (by simp [hashInputs, hb])) fun b hb => .inr (by simp [hashInputs, hb]))
  · have := hinj (.inl (by simp [hashInputs])) (.inr (by simp [hashInputs])) (htree.trans htree'.symm)
    exact (List.cons.inj this).2
  · exact FeeFloorEntry.serialize_injective.list_map (orderedMerkleRoot_inj hinj hfloors hfloors'
      (fun b hb => .inl (by simp [hashInputs, hb])) fun b hb => .inr (by simp [hashInputs, hb]))
  · exact Output.toBytes_injective.list_map (orderedMerkleRoot_inj hinj hrewards hrewards'
      (fun b hb => .inl (by simp [hashInputs, hb])) fun b hb => .inr (by simp [hashInputs, hb]))

/-- The bytes of a genesis anchor begin with its header and end with its commitment. -/
theorem Anchor.genesis_layout_inj {a a' : Anchor C} (h : a.layout = a'.layout) :
    a.header = a'.header ∧ a.genesisCommitment = a'.genesisCommitment := by
  have hlen : ∀ x : AnchorHeader, x.serialize.length = 210 := by
    intro x
    simp [AnchorHeader.serialize]
  obtain ⟨h, hcommitment⟩ := List.append_inj' h (by simp)
  simp only [List.append_assoc] at h
  obtain ⟨-, h⟩ := List.append_inj h (by simp)
  obtain ⟨hheader, -⟩ := List.append_inj h (by rw [hlen, hlen])
  exact ⟨AnchorHeader.serialize_inj hheader, FixedBytes.bytes_inj.1 hcommitment⟩

/-- Anchors of one kind with one hash are equal. -/
theorem Anchor.blockHash_inj (a a' : Anchor C)
    (hinj : Set.InjOn C.hashBytes {b | b ∈ a.hashInputs ∨ b ∈ a'.hashInputs})
    (hkind : a.isGenesis ↔ a'.isGenesis) (h : a.blockHash = a'.blockHash) : a = a' := by
  have hheader : a.header = a'.header ∧ a.genesisCommitment = a'.genesisCommitment := by
    unfold Anchor.blockHash at h
    by_cases hg : a.isGenesis
    · have hg' := hkind.1 hg
      rw [if_pos hg, if_pos hg'] at h
      refine genesis_layout_inj (hinj (.inl ?_) (.inr ?_) h)
      · simp [hashInputs, hg]
      · simp [hashInputs, hg']
    · have hg' : ¬a'.isGenesis := fun h => hg (hkind.2 h)
      rw [if_neg hg, if_neg hg'] at h
      have hbytes := hinj (.inl (by simp [hashInputs, hg])) (.inr (by simp [hashInputs, hg'])) h
      refine ⟨AnchorHeader.serialize_inj (List.cons.inj hbytes).2, ?_⟩
      rw [not_not.1 hg, not_not.1 hg']
  obtain ⟨hcovered, hcandidates, htree, hfloors, hrewards⟩ := Anchor.body_eq hinj hheader.1
  obtain ⟨⟨header, covered, candidates, tree, floors, rewards, commitment⟩, hvalid⟩ := a
  obtain ⟨⟨header', covered', candidates', tree', floors', rewards', commitment'⟩, hvalid'⟩ := a'
  obtain ⟨hheader, hcommitment⟩ := hheader
  cases hheader
  cases hcommitment
  cases hcovered
  cases hcandidates
  cases htree
  cases hfloors
  cases hrewards
  rfl

/-- **A block hash binds the whole body.** Where no two of the byte strings that two blocks
make the code hash collide, fruits with one hash are equal, and so are two genesis or two
other anchors. -/
theorem blockHash_binds (C : Crypto) :
    (∀ f f' : Fruit C, Set.InjOn C.hashBytes {b | b ∈ f.hashInputs ∨ b ∈ f'.hashInputs} →
      f.blockHash = f'.blockHash → f = f') ∧
    (∀ a a' : Anchor C, Set.InjOn C.hashBytes {b | b ∈ a.hashInputs ∨ b ∈ a'.hashInputs} →
      (a.isGenesis ↔ a'.isGenesis) → a.blockHash = a'.blockHash → a = a') :=
  ⟨Fruit.blockHash_inj, Anchor.blockHash_inj⟩

/-- The first sample fruit, mined a millisecond later. -/
def sampleTwin : Fruit sampleCrypto :=
  ⟨⟨⟨sampleFruitHeader genesisParentHash sampleGenesis.blockHash [sampleCoinbase.toBytes] 30001, by decide +kernel⟩,
    [sampleCoinbase.toBytes]⟩, by decide +kernel⟩

/-- The two sample fruits differ, and so do their hashes. -/
theorem blockHash_binds_twin : sampleFruit.blockHash ≠ sampleTwin.blockHash := by
  have hfree : ∀ b ∈ sampleFruit.hashInputs ++ sampleTwin.hashInputs,
      ∀ b' ∈ sampleFruit.hashInputs ++ sampleTwin.hashInputs,
      sampleCrypto.hashBytes b = sampleCrypto.hashBytes b' → b = b' := by
    decide +kernel
  intro h
  have heq := (blockHash_binds sampleCrypto).1 sampleFruit sampleTwin
    (fun b hb b' hb' => hfree b (List.mem_append.2 hb) b' (List.mem_append.2 hb')) h
  exact absurd heq (by decide +kernel)

end TensorPow
