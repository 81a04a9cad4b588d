import Mathlib

/-!
# Invertible Bloom lookup tables

A table of cells. Every key adds one to the count, and its value to the sum, of each of its
cells. Keys are read back by peeling: a cell that holds one key gives the key, which is
then taken out of all its cells.

* `update`: add a value, with a sign, to some cells.
* `peelLoop`: the peeling loop of a `Peeler`; `peelLoop_returns`: it runs to its end.
* `Sketch cells l`: the cells hold exactly the keys `l`.
* `Peelable pos l`: no subset of `l` has two keys in every cell it touches.
* `peelLoop_sketch`: peeling gives back the keys exactly if they are peelable.
-/

namespace Iblt

/-- One cell: how many keys it holds, and the sum of their values. -/
structure Cell (G : Type) where
  count : ℤ
  sum : G
deriving DecidableEq

/-! ## Peeling -/

/-- What peeling needs to know about cells. -/
structure Peeler (ε κ γ : Type) where
  isPure : γ → Bool
  isEmpty : γ → Bool
  cellKey : γ → κ
  peelDelta : γ → ℤ
  applyKey : List γ → κ → ℤ → Except ε (List γ)

variable {ε κ γ G : Type}

/-- Take out keys while there is a pure cell, at most `fuel` times. -/
def peelLoop [DecidableEq γ] (p : Peeler ε κ γ) : ℕ → List γ → List (κ × ℤ) → Except ε (Option (List (κ × ℤ)))
  | fuel, working, peeled =>
    match working.findIdx? p.isPure, fuel with
    | none, _ => .ok (if working.all p.isEmpty then some peeled else none)
    | some _, 0 => .ok none
    | some i, fuel + 1 =>
      match working[i]? with
      | none => .ok none
      | some cell => do
        let next ← p.applyKey working (p.cellKey cell) (p.peelDelta cell)
        match next[i]? with
        | none => return none
        | some after =>
          if after = cell ∨ p.isEmpty after = false then return none
          else peelLoop p fuel next (peeled ++ [(p.cellKey cell, p.peelDelta cell)])

/-- Peeling runs to its end if keys can be taken out of all cells it meets. -/
theorem peelLoop_returns [DecidableEq γ] {p : Peeler ε κ γ} (P : List γ → Prop)
    (happly : ∀ cells c, P cells → ∃ next, p.applyKey cells (p.cellKey c) (p.peelDelta c) = .ok next ∧ P next)
    (fuel : ℕ) {cells : List γ} (peeled : List (κ × ℤ)) (h : P cells) : ∃ r, peelLoop p fuel cells peeled = .ok r := by
  induction fuel generalizing cells peeled with
  | zero =>
    unfold peelLoop
    split
    · exact ⟨_, rfl⟩
    · exact ⟨_, rfl⟩
    · rename_i hfuel
      cases hfuel
  | succ fuel ih =>
    unfold peelLoop
    split
    · exact ⟨_, rfl⟩
    · exact ⟨_, rfl⟩
    · rename_i fuel' _ hfuel
      cases hfuel
      split
      · exact ⟨_, rfl⟩
      · rename_i cell _
        obtain ⟨next, hnext, hkeep⟩ := happly cells cell h
        simp only [hnext, bind, Except.bind]
        split
        · exact ⟨_, rfl⟩
        · split
          · exact ⟨_, rfl⟩
          · exact ih _ hkeep

/-! ## Cells and keys -/

section Sketches

variable (op : G → G → G) (zero : G)

/-- A commutative sum in which every value is its own inverse. -/
structure SelfInverse : Prop where
  comm : ∀ a b, op a b = op b a
  assoc : ∀ a b c, op (op a b) c = op a (op b c)
  zero_op : ∀ a, op zero a = a
  self : ∀ a, op a a = zero

/-- Add a value, with a sign, to the cells at the given positions. -/
def update (δ : ℤ) (g : G) (cells : List (Cell G)) (positions : List ℕ) : List (Cell G) :=
  positions.foldl (fun cs i => cs.modify i fun c => ⟨c.count + δ, op c.sum g⟩) cells

variable {op zero}

@[simp] theorem length_update (δ : ℤ) (g : G) (cells : List (Cell G)) (positions : List ℕ) :
    (update op δ g cells positions).length = cells.length := by
  induction positions generalizing cells with
  | nil => rfl
  | cons i is ih => simpa [update] using ih (cells.modify i fun c => ⟨c.count + δ, op c.sum g⟩)

/-- What an update does to one cell. -/
theorem get_update {positions : List ℕ} (hnodup : positions.Nodup) (δ : ℤ) (g : G) (cells : List (Cell G)) (i : ℕ) :
    (update op δ g cells positions)[i]? =
      cells[i]?.map fun c => if i ∈ positions then ⟨c.count + δ, op c.sum g⟩ else c := by
  induction positions generalizing cells with
  | nil => simp [update]
  | cons j js ih =>
    obtain ⟨hj, hjs⟩ := List.nodup_cons.1 hnodup
    have hstep : update op δ g cells (j :: js) =
        update op δ g (cells.modify j fun c => ⟨c.count + δ, op c.sum g⟩) js := rfl
    rw [hstep, ih hjs, List.getElem?_modify, Option.map_eq_map, Option.map_map]
    congr 1
    funext c
    by_cases hij : j = i
    · subst hij
      simp [hj]
    · have hne : i ≠ j := fun h => hij h.symm
      simp [hij, hne]

variable {K : Type} (op zero) (value : K → G) (pos : K → List ℕ)

/-- The cell that holds exactly the keys `l`. -/
def cellOf (l : List K) : Cell G := ⟨l.length, (l.map value).foldr op zero⟩

/-- The keys of `l` that have a cell at `i`. -/
def holding (l : List K) (i : ℕ) : List K := l.filter fun k => i ∈ pos k

/-- The cells hold exactly the keys `l`. -/
def Sketch (cells : List (Cell G)) (l : List K) : Prop :=
  ∀ i < cells.length, cells[i]? = some (cellOf op zero value (holding pos l i))

/-- No subset of `l` has two keys in every cell that it touches. -/
def Peelable (l : List K) : Prop :=
  ¬∃ T : Set K, T.Nonempty ∧ (∀ k ∈ T, k ∈ l) ∧ ∀ k ∈ T, ∀ i ∈ pos k, ∃ k' ∈ T, k' ≠ k ∧ i ∈ pos k'

variable {op zero value pos}

theorem cellOf_perm (hop : SelfInverse op zero) {l l' : List K} (h : l.Perm l') :
    cellOf op zero value l = cellOf op zero value l' := by
  have hcomm : LeftCommutative op := ⟨fun a b c => by rw [← hop.assoc, hop.comm a b, hop.assoc]⟩
  unfold cellOf
  rw [h.length_eq, (h.map value).foldr_eq]

theorem cellOf_cons (k : K) (l : List K) :
    cellOf op zero value (k :: l) =
      ⟨(cellOf op zero value l).count + 1, op (value k) (cellOf op zero value l).sum⟩ := by
  unfold cellOf
  simp

/-- The empty table holds no keys. -/
theorem sketch_nil (m : ℕ) : Sketch op zero value pos (List.replicate m ⟨0, zero⟩) ([] : List K) := by
  intro i hi
  rw [List.getElem?_replicate, if_pos (by simpa using hi)]
  rfl

/-- The order of the keys does not matter. -/
theorem Sketch.perm (hop : SelfInverse op zero) {cells : List (Cell G)} {l l' : List K}
    (hs : Sketch op zero value pos cells l) (h : l.Perm l') : Sketch op zero value pos cells l' := by
  intro i hi
  have hperm : (holding pos l i).Perm (holding pos l' i) := h.filter _
  rw [hs i hi, cellOf_perm hop hperm]

/-- Adding a key. -/
theorem Sketch.add (hop : SelfInverse op zero) {cells : List (Cell G)} {l : List K}
    (hs : Sketch op zero value pos cells l) {k : K} (hpos : (pos k).Nodup) :
    Sketch op zero value pos (update op 1 (value k) cells (pos k)) (k :: l) := by
  intro i hi
  rw [length_update] at hi
  rw [get_update hpos, hs i hi, Option.map_some]
  by_cases hik : i ∈ pos k
  · have hhold : holding pos (k :: l) i = k :: holding pos l i := List.filter_cons_of_pos (by simpa using hik)
    rw [if_pos hik, hhold, cellOf_cons, hop.comm]
  · have hhold : holding pos (k :: l) i = holding pos l i := List.filter_cons_of_neg (by simpa using hik)
    rw [if_neg hik, hhold]

/-- Taking out a key. -/
theorem Sketch.remove [DecidableEq K] (hop : SelfInverse op zero) {cells : List (Cell G)} {l : List K}
    (hs : Sketch op zero value pos cells l) {k : K} (hk : k ∈ l) (hpos : (pos k).Nodup) :
    Sketch op zero value pos (update op (-1) (value k) cells (pos k)) (l.erase k) := by
  intro i hi
  rw [length_update] at hi
  have hperm : (holding pos l i).Perm (holding pos (k :: l.erase k) i) := (List.perm_cons_erase hk).filter _
  rw [get_update hpos, hs i hi, Option.map_some, cellOf_perm hop hperm]
  by_cases hik : i ∈ pos k
  · have hhold : holding pos (k :: l.erase k) i = k :: holding pos (l.erase k) i :=
      List.filter_cons_of_pos (by simpa using hik)
    have hcancel : ∀ s, op (op (value k) s) (value k) = s := by
      intro s
      rw [hop.comm, ← hop.assoc, hop.self, hop.zero_op]
    rw [if_pos hik, hhold, cellOf_cons, hcancel, Int.add_neg_cancel_right]
  · have hhold : holding pos (k :: l.erase k) i = holding pos (l.erase k) i :=
      List.filter_cons_of_neg (by simpa using hik)
    rw [if_neg hik, hhold]

theorem mem_holding {l : List K} {i : ℕ} {k : K} : k ∈ holding pos l i ↔ k ∈ l ∧ i ∈ pos k := by
  unfold holding
  rw [List.mem_filter, decide_eq_true_iff]

end Sketches

/-! ## Peeling a sketch -/

section PeelSketch

variable {K : Type} [DecidableEq G] (op : G → G → G) (zero : G) (value : K → G) (pos : K → List ℕ)

/-- A peeler that recognises a single key, and an empty cell, and takes keys out. -/
structure Peels (p : Peeler ε K (Cell G)) (m : ℕ) (keys : List K) : Prop where
  isPure : ∀ l, p.isPure (cellOf op zero value l) = true ↔ ∃ k, l = [k]
  isEmpty : ∀ l, p.isEmpty (cellOf op zero value l) = true ↔ l = []
  cellKey : ∀ k, p.cellKey (cellOf op zero value [k]) = k
  peelDelta : ∀ c, p.peelDelta c = -1
  applyKey : ∀ cells k, cells.length = m → k ∈ keys → p.applyKey cells k (-1) = .ok (update op (-1) (value k) cells (pos k))
  nodup : ∀ k ∈ keys, (pos k).Nodup
  lt : ∀ k ∈ keys, ∀ i ∈ pos k, i < m
  touches : ∀ k ∈ keys, pos k ≠ []

variable {op zero value pos}

/-- A key alone in one of its cells is in no obstruction. -/
theorem peelable_erase [DecidableEq K] {l : List K} {k : K} {i : ℕ} (halone : holding pos l i = [k]) :
    Peelable pos (l.erase k) ↔ Peelable pos l := by
  have hik : i ∈ pos k := (mem_holding.1 (halone ▸ List.mem_singleton_self k)).2
  refine not_congr ⟨?_, ?_⟩
  · rintro ⟨T, hne, hsub, hstop⟩
    exact ⟨T, hne, fun x hx => List.mem_of_mem_erase (hsub x hx), hstop⟩
  · rintro ⟨T, hne, hsub, hstop⟩
    refine ⟨T, hne, fun x hx => ?_, hstop⟩
    have hxk : x ≠ k := by
      rintro rfl
      obtain ⟨y, hy, hyx, hiy⟩ := hstop x hx i hik
      have hmem : y ∈ holding pos l i := mem_holding.2 ⟨hsub y hy, hiy⟩
      rw [halone, List.mem_singleton] at hmem
      exact hyx hmem
    exact (List.mem_erase_of_ne hxk).2 (hsub x hx)

/-- Keys without a pure cell are an obstruction. -/
theorem not_peelable {l : List K} (hnodup : l.Nodup) (hne : l ≠ [])
    (hmany : ∀ k ∈ l, ∀ i ∈ pos k, ∀ k', holding pos l i ≠ [k']) : ¬Peelable pos l := by
  refine not_not.2 ⟨{k | k ∈ l}, List.exists_mem_of_ne_nil l hne, fun k hk => hk, fun k hk i hi => ?_⟩
  have hmem : k ∈ holding pos l i := mem_holding.2 ⟨hk, hi⟩
  by_contra hno
  -- otherwise `k` is the only key of the cell
  have hall : ∀ y ∈ holding pos l i, y = k := by
    intro y hy
    obtain ⟨hyl, hiy⟩ := mem_holding.1 hy
    by_contra hyk
    exact hno ⟨y, hyl, hyk, hiy⟩
  have hone : holding pos l i = [k] := by
    have hnd : (holding pos l i).Nodup := hnodup.filter _
    rw [List.eq_replicate_iff.2 ⟨rfl, hall⟩] at hnd ⊢
    have hle := List.nodup_replicate.1 hnd
    have hlen : (holding pos l i).length = 1 := by
      have := List.length_pos_of_mem hmem
      omega
    rw [hlen]
    rfl
  exact hmany k hk i hi k hone

section Loop

variable {p : Peeler ε K (Cell G)} {m fuel : ℕ} {keys l : List K} {cells : List (Cell G)} {peeled : List (K × ℤ)}

/-- What peeling a sketch of `l` comes to. -/
def Outcome (pos : K → List ℕ) (l : List K) (peeled : List (K × ℤ)) (r : Except ε (Option (List (K × ℤ)))) : Prop :=
  (Peelable pos l ∧ ∃ l' : List K, l'.Perm l ∧ r = .ok (some (peeled ++ l'.map fun k => (k, -1)))) ∨
    (¬Peelable pos l ∧ r = .ok none)

theorem peelLoop_stop (h : cells.findIdx? p.isPure = none) :
    peelLoop p fuel cells peeled = .ok (if cells.all p.isEmpty then some peeled else none) := by
  unfold peelLoop
  rw [h]

theorem peelLoop_next {i : ℕ} {cell after : Cell G} {next : List (Cell G)} (hi : cells.findIdx? p.isPure = some i)
    (hcell : cells[i]? = some cell) (hnext : p.applyKey cells (p.cellKey cell) (p.peelDelta cell) = .ok next)
    (hafter : next[i]? = some after) (hne : after ≠ cell) (hempty : p.isEmpty after = true) :
    peelLoop p (fuel + 1) cells peeled =
      peelLoop p fuel next (peeled ++ [(p.cellKey cell, p.peelDelta cell)]) := by
  have hgo : ¬(after = cell ∨ p.isEmpty after = false) := by simp [hne, hempty]
  conv_lhs => unfold peelLoop
  simp only [hi, hcell, hnext, hafter, if_neg hgo, bind, Except.bind]

/-- When no cell is pure, the keys are gone or they cannot be peeled. -/
theorem outcome_stop (hp : Peels op zero value pos p m keys) (hlen : cells.length = m)
    (hs : Sketch op zero value pos cells l) (hsub : ∀ k ∈ l, k ∈ keys) (hnodup : l.Nodup)
    (hstop : cells.findIdx? p.isPure = none) : Outcome pos l peeled (peelLoop p fuel cells peeled) := by
  rw [peelLoop_stop hstop]
  have hcell : ∀ i < m, cellOf op zero value (holding pos l i) ∈ cells := by
    intro i hi
    exact List.mem_of_getElem? (hs i (by omega))
  by_cases hnil : l = []
  · subst hnil
    have hall : cells.all p.isEmpty = true := by
      rw [List.all_eq_true]
      intro c hc
      obtain ⟨i, hi, rfl⟩ := List.getElem_of_mem hc
      have hget := hs i hi
      rw [List.getElem?_eq_getElem hi] at hget
      rw [Option.some.inj hget]
      exact (hp.isEmpty _).2 rfl
    refine .inl ⟨?_, [], List.Perm.refl _, by rw [if_pos hall]; simp⟩
    rintro ⟨T, ⟨k, hk⟩, hsub, -⟩
    cases hsub k hk
  · -- no cell holds a single key, so none can be peeled first
    have hmany : ∀ k ∈ l, ∀ i ∈ pos k, ∀ k', holding pos l i ≠ [k'] := by
      intro k hk i hi k' hone
      have hpure := (hp.isPure _).2 ⟨k', hone⟩
      have hnot := List.findIdx?_eq_none_iff.1 hstop _ (hcell i (hp.lt k (hsub k hk) i hi))
      rw [hpure] at hnot
      cases hnot
    have hall : ¬cells.all p.isEmpty = true := by
      intro hall
      rw [List.all_eq_true] at hall
      obtain ⟨k, hk⟩ := List.exists_mem_of_ne_nil l hnil
      obtain ⟨i, hi⟩ := List.exists_mem_of_ne_nil _ (hp.touches k (hsub k hk))
      have hempty := (hp.isEmpty _).1 (hall _ (hcell i (hp.lt k (hsub k hk) i hi)))
      have hmem : k ∈ holding pos l i := mem_holding.2 ⟨hk, hi⟩
      rw [hempty] at hmem
      cases hmem
    exact .inr ⟨not_peelable hnodup hnil hmany, by rw [if_neg hall]⟩

/-- **Peeling a sketch** gives back its keys if they are peelable, and nothing else. -/
theorem peelLoop_sketch [DecidableEq K] (hop : SelfInverse op zero) (hp : Peels op zero value pos p m keys)
    (hlen : cells.length = m) (hs : Sketch op zero value pos cells l) (hsub : ∀ k ∈ l, k ∈ keys) (hnodup : l.Nodup) (hfuel : l.length ≤ fuel) :
    Outcome pos l peeled (peelLoop p fuel cells peeled) := by
  induction fuel generalizing cells l peeled with
  | zero =>
    -- no keys are left, so no cell is pure
    obtain rfl : l = [] := List.eq_nil_of_length_eq_zero (by omega)
    refine outcome_stop hp hlen hs hsub hnodup (List.findIdx?_eq_none_iff.2 fun c hc => ?_)
    obtain ⟨i, hi, rfl⟩ := List.getElem_of_mem hc
    have hget := hs i hi
    rw [List.getElem?_eq_getElem hi] at hget
    rw [Option.some.inj hget]
    by_contra hpure
    obtain ⟨k, hk⟩ := (hp.isPure _).1 (by simpa using hpure)
    cases hk
  | succ fuel ih =>
    cases hidx : cells.findIdx? p.isPure with
    | none => exact outcome_stop hp hlen hs hsub hnodup hidx
    | some i =>
      obtain ⟨hi, hpure, -⟩ := List.findIdx?_eq_some_iff_getElem.1 hidx
      have hget := hs i hi
      have hcell : cells[i] = cellOf op zero value (holding pos l i) := by
        rw [List.getElem?_eq_getElem hi] at hget
        exact Option.some.inj hget
      rw [hcell] at hpure
      obtain ⟨k, halone⟩ := (hp.isPure _).1 hpure
      obtain ⟨hk, hik⟩ := mem_holding.1 (show k ∈ holding pos l i from halone ▸ List.mem_singleton_self k)
      rw [halone] at hget
      have hnd := hp.nodup k (hsub k hk)
      have hs' := hs.remove hop hk hnd
      -- the cell of `k` is empty afterwards
      have hafter : (update op (-1) (value k) cells (pos k))[i]? = some (cellOf op zero value ([] : List K)) := by
        rw [hs' i (by rw [length_update]; exact hi)]
        have hgone : holding pos (l.erase k) i = [] := by
          have hperm : (holding pos l i).Perm (k :: holding pos (l.erase k) i) := by
            have hfilter := (List.perm_cons_erase hk).filter fun x => decide (i ∈ pos x)
            rw [List.filter_cons_of_pos (by simpa using hik)] at hfilter
            exact hfilter
          rw [halone] at hperm
          have hlength := hperm.length_eq
          rw [List.length_singleton, List.length_cons] at hlength
          exact List.eq_nil_of_length_eq_zero (by omega)
        rw [hgone]
      have hne : cellOf op zero value ([] : List K) ≠ cellOf op zero value [k] := by
        intro heq
        have hcount := congrArg Cell.count heq
        simp [cellOf] at hcount
      have hout : p.applyKey cells (p.cellKey (cellOf op zero value [k])) (p.peelDelta (cellOf op zero value [k])) =
          .ok (update op (-1) (value k) cells (pos k)) := by
        rw [hp.cellKey, hp.peelDelta]
        exact hp.applyKey cells k hlen (hsub k hk)
      rw [peelLoop_next hidx hget hout hafter hne ((hp.isEmpty _).2 rfl), hp.cellKey, hp.peelDelta]
      have hfewer : (l.erase k).length ≤ fuel := by
        rw [List.length_erase_of_mem hk]
        omega
      have hrest : Outcome pos (l.erase k) (peeled ++ [(k, -1)]) (peelLoop p fuel _ (peeled ++ [(k, -1)])) :=
        ih (by rw [length_update]; exact hlen) hs' (fun x hx => hsub x (List.mem_of_mem_erase hx))
          (hnodup.erase k) hfewer
      unfold Outcome at hrest ⊢
      rw [peelable_erase halone] at hrest
      rcases hrest with ⟨hpeel, l', hperm, hr⟩ | hrest
      · refine .inl ⟨hpeel, k :: l', (hperm.cons k).trans (List.perm_cons_erase hk).symm, ?_⟩
        rw [hr, List.map_cons, List.append_assoc, List.singleton_append]
      · exact .inr hrest

end Loop

end PeelSketch

end Iblt
