import TensorPow.Exn.Basic
import TensorPow.Iblt.Basic

/-!
# The peeling loop round by round

* `PeelState`, `peelRound`, `Finishes`: the loop as it is written, with its counter, and its
  runs; `peelLoop_finishes`: every run ends, within as many rounds as the counter allows.
* `update_comm`, `update_cancel`: taking keys out in any order, and putting one back.
* `peelLoop_undo`: whatever the cells are, the keys that peeling returned give the cells back.
-/

namespace Iblt

variable {ε κ γ G : Type}

/-! ## Rounds -/

/-- The variables of the loop. -/
structure PeelState (κ γ : Type) where
  iterations : ℕ
  working : List γ
  peeled : List (κ × ℤ)

/-- One round: the loop returns, or it goes on. -/
def peelRound [DecidableEq γ] (p : Peeler ε κ γ) (maxIterations : ℕ) (s : PeelState κ γ) :
    Except ε (Option (List (κ × ℤ)) ⊕ PeelState κ γ) :=
  match s.working.findIdx? p.isPure with
  | none => .ok (.inl (if s.working.all p.isEmpty then some s.peeled else none))
  | some i =>
    if maxIterations ≤ s.iterations then .ok (.inl none)
    else
      match s.working[i]? with
      | none => .ok (.inl none)
      | some cell => do
        let next ← p.applyKey s.working (p.cellKey cell) (p.peelDelta cell)
        match next[i]? with
        | none => return .inl none
        | some after =>
          if after = cell ∨ p.isEmpty after = false then return .inl none
          else return .inr ⟨s.iterations + 1, next, s.peeled ++ [(p.cellKey cell, p.peelDelta cell)]⟩

/-- The loop returns or stops after `n` rounds in which it went on. -/
inductive Finishes [DecidableEq γ] (p : Peeler ε κ γ) (maxIterations : ℕ) :
    PeelState κ γ → ℕ → Except ε (Option (List (κ × ℤ))) → Prop
  | returns {s : PeelState κ γ} {r : Option (List (κ × ℤ))} (h : peelRound p maxIterations s = .ok (.inl r)) :
      Finishes p maxIterations s 0 (.ok r)
  | stops {s : PeelState κ γ} {e : ε} (h : peelRound p maxIterations s = .error e) :
      Finishes p maxIterations s 0 (.error e)
  | next {s s' : PeelState κ γ} {n : ℕ} {r : Except ε (Option (List (κ × ℤ)))}
      (h : peelRound p maxIterations s = .ok (.inr s')) (hrest : Finishes p maxIterations s' n r) :
      Finishes p maxIterations s (n + 1) r

/-- **The loop ends**: its counter bounds the rounds. -/
theorem peelLoop_finishes [DecidableEq γ] (p : Peeler ε κ γ) {maxIterations fuel iterations : ℕ}
    (hfuel : iterations + fuel = maxIterations) (working : List γ) (peeled : List (κ × ℤ)) :
    ∃ n ≤ fuel, Finishes p maxIterations ⟨iterations, working, peeled⟩ n (peelLoop p fuel working peeled) := by
  induction fuel generalizing iterations working peeled with
  | zero =>
    refine ⟨0, le_rfl, ?_⟩
    unfold peelLoop
    cases hpure : working.findIdx? p.isPure with
    | none =>
      refine .returns ?_
      unfold peelRound
      rw [hpure]
    | some i =>
      refine .returns ?_
      unfold peelRound
      rw [hpure]
      exact if_pos (by show maxIterations ≤ iterations; omega)
  | succ fuel ih =>
    unfold peelLoop
    cases hpure : working.findIdx? p.isPure with
    | none =>
      refine ⟨0, Nat.zero_le _, .returns ?_⟩
      unfold peelRound
      rw [hpure]
    | some i =>
      -- the counter has not reached its bound, so the round does what the loop does
      have hround : peelRound p maxIterations ⟨iterations, working, peeled⟩ =
          match working[i]? with
          | none => .ok (.inl none)
          | some cell => do
            let next ← p.applyKey working (p.cellKey cell) (p.peelDelta cell)
            match next[i]? with
            | none => return .inl none
            | some after =>
              if after = cell ∨ p.isEmpty after = false then return .inl none
              else return .inr ⟨iterations + 1, next, peeled ++ [(p.cellKey cell, p.peelDelta cell)]⟩ := by
        unfold peelRound
        rw [hpure]
        exact if_neg (by show ¬maxIterations ≤ iterations; omega)
      dsimp only
      cases hcell : working[i]? with
      | none =>
        rw [hcell] at hround
        exact ⟨0, Nat.zero_le _, .returns hround⟩
      | some cell =>
        rw [hcell] at hround
        dsimp only at hround ⊢
        cases hnext : p.applyKey working (p.cellKey cell) (p.peelDelta cell) with
        | error e =>
          rw [hnext] at hround
          exact ⟨0, Nat.zero_le _, .stops hround⟩
        | ok next =>
          rw [hnext] at hround
          simp only [bind, Except.bind] at hround ⊢
          cases hafter : next[i]? with
          | none =>
            rw [hafter] at hround
            exact ⟨0, Nat.zero_le _, .returns hround⟩
          | some after =>
            rw [hafter] at hround
            dsimp only at hround ⊢
            by_cases hstop : after = cell ∨ p.isEmpty after = false
            · rw [if_pos hstop] at hround ⊢
              exact ⟨0, Nat.zero_le _, .returns hround⟩
            · -- one more key is out, and the counter one higher
              rw [if_neg hstop] at hround ⊢
              obtain ⟨n, hn, hfinishes⟩ := ih (show iterations + 1 + fuel = maxIterations by omega) next
                (peeled ++ [(p.cellKey cell, p.peelDelta cell)])
              exact ⟨n + 1, by omega, .next hround hfinishes⟩

/-- How peeling can return keys: all cells are empty, or it has taken out one more. -/
theorem peelLoop_cases [DecidableEq γ] {p : Peeler ε κ γ} {fuel : ℕ} {cells : List γ} {peeled result : List (κ × ℤ)}
    (h : peelLoop p fuel cells peeled = .ok (some result)) :
    (cells.all p.isEmpty = true ∧ result = peeled) ∨
      ∃ fuel' cell next, fuel = fuel' + 1 ∧ p.applyKey cells (p.cellKey cell) (p.peelDelta cell) = .ok next ∧
        peelLoop p fuel' next (peeled ++ [(p.cellKey cell, p.peelDelta cell)]) = .ok (some result) := by
  unfold peelLoop at h
  split at h
  · -- no cell is pure
    split at h
    · rename_i hempty
      exact .inl ⟨hempty, (Option.some.inj (Except.ok.inj h)).symm⟩
    · cases h
  · cases h
  · rename_i fuel' _
    split at h
    · cases h
    · rename_i cell _
      obtain ⟨next, hnext, h⟩ := Exn.bind_ok.1 h
      split at h
      · cases h
      · split at h
        · cases h
        · exact .inr ⟨fuel', cell, next, rfl, hnext, h⟩

/-! ## Undoing -/

section Undo

variable {op : G → G → G} {zero : G}

theorem update_comm (hop : SelfInverse op zero) {pos pos' : List ℕ} (hpos : pos.Nodup) (hpos' : pos'.Nodup) (δ δ' : ℤ)
    (g g' : G) (cells : List (Cell G)) :
    update op δ g (update op δ' g' cells pos') pos = update op δ' g' (update op δ g cells pos) pos' := by
  apply List.ext_getElem?
  intro i
  rw [get_update hpos, get_update hpos', get_update hpos', get_update hpos, Option.map_map, Option.map_map]
  congr 1
  funext c
  have hsum : op (op c.sum g') g = op (op c.sum g) g' := by
    rw [hop.assoc, hop.comm g' g, ← hop.assoc]
  have hcount : c.count + δ' + δ = c.count + δ + δ' := Int.add_right_comm _ _ _
  by_cases hi : i ∈ pos <;> by_cases hi' : i ∈ pos' <;> simp [hi, hi', hsum, hcount]

/-- Putting back a key that was taken out. -/
theorem update_cancel (hop : SelfInverse op zero) {pos : List ℕ} (hpos : pos.Nodup) (δ : ℤ) (g : G)
    (cells : List (Cell G)) : update op (-δ) g (update op δ g cells pos) pos = cells := by
  apply List.ext_getElem?
  intro i
  rw [get_update hpos, get_update hpos, Option.map_map]
  have hid : ((fun c : Cell G => if i ∈ pos then (⟨c.count + -δ, op c.sum g⟩ : Cell G) else c) ∘
      fun c => if i ∈ pos then ⟨c.count + δ, op c.sum g⟩ else c) = id := by
    funext c
    have hsum : op (op c.sum g) g = c.sum := by
      rw [hop.assoc, hop.self, hop.comm, hop.zero_op]
    by_cases hi : i ∈ pos
    · simp [hi, hsum]
    · simp [hi]
  rw [hid, Option.map_id_fun, id]

variable {K : Type} [DecidableEq G] (op zero) (value : K → G) (pos : K → List ℕ)

/-- A peeler that takes out keys by updates of their cells, and knows an empty cell. -/
structure Updates (p : Peeler ε K (Cell G)) (m : ℕ) : Prop where
  isEmpty : ∀ c, p.isEmpty c = true → c = ⟨0, zero⟩
  applyKey : ∀ cells k δ next, cells.length = m → p.applyKey cells k δ = .ok next →
    (pos k).Nodup ∧ next = update op δ (value k) cells (pos k)

/-- The opposite of what was taken out, one after another. -/
def restore (cells : List (Cell G)) (peeled : List (K × ℤ)) : List (Cell G) :=
  peeled.foldl (fun cs q => update op (-q.2) (value q.1) cs (pos q.1)) cells

variable {op zero value pos}

omit [DecidableEq G] in
/-- An update can be made before or after. -/
theorem restore_update (hop : SelfInverse op zero) {peeled : List (K × ℤ)} (hpeeled : ∀ q ∈ peeled, (pos q.1).Nodup)
    {at' : List ℕ} (hat : at'.Nodup) (δ : ℤ) (g : G) (cells : List (Cell G)) :
    restore op value pos (update op δ g cells at') peeled = update op δ g (restore op value pos cells peeled) at' := by
  induction peeled generalizing cells with
  | nil => rfl
  | cons q peeled ih =>
    have hq := hpeeled q List.mem_cons_self
    show restore op value pos (update op (-q.2) (value q.1) (update op δ g cells at') (pos q.1)) peeled = _
    rw [update_comm hop hq hat, ih fun q hq => hpeeled q (List.mem_cons_of_mem _ hq)]
    rfl

/-- **What peeling returned gives the cells back**, whatever they are. -/
theorem peelLoop_undo (hop : SelfInverse op zero) {p : Peeler ε K (Cell G)} {m : ℕ}
    (hp : Updates op zero value pos p m) {fuel : ℕ} {cells : List (Cell G)} {peeled result : List (K × ℤ)}
    (hlen : cells.length = m) (h : peelLoop p fuel cells peeled = .ok (some result)) :
    ∃ rest, result = peeled ++ rest ∧ rest.length ≤ fuel ∧
      (∀ q ∈ rest, ∃ cells' next, cells'.length = m ∧ p.applyKey cells' q.1 q.2 = .ok next) ∧
      restore op value pos (List.replicate m ⟨0, zero⟩) rest = cells := by
  have hcells : ∀ {cells : List (Cell G)}, cells.length = m → cells.all p.isEmpty = true →
      cells = List.replicate m ⟨0, zero⟩ := by
    intro cells hlen hall
    refine List.eq_replicate_iff.2 ⟨hlen, fun c hc => ?_⟩
    exact hp.isEmpty c (List.all_eq_true.1 hall c hc)
  induction fuel generalizing cells peeled with
  | zero =>
    rcases peelLoop_cases h with ⟨hempty, rfl⟩ | ⟨fuel', cell, next, hfuel, -⟩
    · exact ⟨[], (List.append_nil _).symm, le_rfl, fun q hq => absurd hq List.not_mem_nil, (hcells hlen hempty).symm⟩
    · omega
  | succ fuel ih =>
    rcases peelLoop_cases h with ⟨hempty, rfl⟩ | ⟨fuel', cell, next, hfuel, hnext, hrest⟩
    · exact ⟨[], (List.append_nil _).symm, Nat.zero_le _, fun q hq => absurd hq List.not_mem_nil,
        (hcells hlen hempty).symm⟩
    · obtain rfl : fuel = fuel' := Nat.succ.inj hfuel
      -- one round is an update at the positions of the key it takes out
      obtain ⟨hnodup, heq⟩ := hp.applyKey _ _ _ _ hlen hnext
      have hlen' : next.length = m := by
        rw [heq, length_update, hlen]
      obtain ⟨rest, hresult, hcount, happlied, hrestore⟩ := ih hlen' hrest
      refine ⟨(p.cellKey cell, p.peelDelta cell) :: rest, ?_, ?_, ?_, ?_⟩
      · rw [hresult, List.append_assoc, List.singleton_append]
      · rw [List.length_cons]
        omega
      · intro q hq
        rcases List.mem_cons.1 hq with rfl | hq
        · exact ⟨cells, next, hlen, hnext⟩
        · exact happlied q hq
      · -- the first key can be put back last
        have hothers : ∀ q ∈ rest, (pos q.1).Nodup := by
          intro q hq
          obtain ⟨cells', next', hcells', hnext'⟩ := happlied q hq
          exact (hp.applyKey _ _ _ _ hcells' hnext').1
        show restore op value pos (update op (-p.peelDelta cell) (value (p.cellKey cell)) (List.replicate m ⟨0, zero⟩)
          (pos (p.cellKey cell))) rest = cells
        rw [restore_update hop hothers hnodup, hrestore, heq, update_cancel hop hnodup]

end Undo

end Iblt
