import TensorPow.Exn.Basic
import TensorPow.Spec.Interpreter

/-!
# Script execution is bounded and fails cleanly

* `Uses`: an opcode takes items off the stack and then puts at most one on it.
* `executeOp_post`, `execute_post`, `step_post`: what one opcode can do.
* `Steps`: the machines that the loop goes through; `steps_ok`: each of them is within bounds.
* `executeScript_clean`: every run ends, within the bounds or with a `ScriptError`.
-/

namespace TensorPow.Script

open Wire Exn

/-- A failure that is a `ScriptError`. -/
def Clean (e : ScriptFailure) : Prop := ∃ msg, e = .scriptError msg

theorem clean (msg : String) : Clean (.scriptError msg) := ⟨msg, rfl⟩

/-- A stack within the bounds. -/
structure Bounded (stack : List Bytes) : Prop where
  items : stack.length ≤ scriptMaxStackItems
  bytes : ∀ item ∈ stack, item.length ≤ scriptMaxElementBytes

/-- An opcode takes items off the stack, leaving `rest`, and then puts at most one on it. -/
def Uses (stack stack' : List Bytes) : Prop :=
  ∃ rest, rest <:+ stack ∧ (stack' = rest ∨
    ∃ item, item.length ≤ scriptMaxElementBytes ∧ rest.length < scriptMaxStackItems ∧ stack' = item :: rest)

theorem Bounded.suffix {stack rest : List Bytes} (h : Bounded stack) (hrest : rest <:+ stack) : Bounded rest :=
  ⟨hrest.length_le.trans h.items, fun item hitem => h.bytes item (hrest.subset hitem)⟩

theorem Bounded.uses {stack stack' : List Bytes} (h : Bounded stack) (huses : Uses stack stack') : Bounded stack' := by
  obtain ⟨rest, hrest, rfl | ⟨item, hitem, hlt, rfl⟩⟩ := huses
  · exact h.suffix hrest
  · refine ⟨?_, List.forall_mem_cons.2 ⟨hitem, (h.suffix hrest).bytes⟩⟩
    rw [List.length_cons]
    omega

/-! ## Items -/

section Items

variable {stack : List Bytes} {item : Bytes} {name : String}

theorem pop_post : Post (pop stack name) (fun r => stack = r.1 :: r.2) Clean := by
  refine (Post.ensure fun _ => clean _).bind fun _ _ hne => ?_
  cases stack with
  | nil => exact absurd rfl hne
  | cons item stack => exact Post.ok rfl

theorem popMany_post (n : ℕ) : Post (popMany name n stack) (fun r => stack = r.1 ++ r.2 ∧ r.1.length = n) Clean := by
  induction n generalizing stack with
  | zero => exact Post.ok ⟨rfl, rfl⟩
  | succ n ih =>
    unfold popMany
    refine pop_post.bind fun r _ hr => ih.bind fun q _ hq => Post.pure ⟨?_, ?_⟩
    · rw [hr, hq.1]
      rfl
    · rw [List.length_cons, hq.2]

theorem push_post : Post (push stack item) (fun s => item.length ≤ scriptMaxElementBytes ∧
    stack.length < scriptMaxStackItems ∧ s = item :: stack) Clean := by
  refine (Post.ensure fun _ => clean _).bind fun _ _ hitem => ?_
  exact (Post.ensure fun _ => clean _).bind fun _ _ hlt => Post.pure ⟨hitem, hlt, rfl⟩

/-- A push onto what an opcode has left. -/
theorem push_uses {rest : List Bytes} (hrest : rest <:+ stack) : Post (push rest item) (Uses stack) Clean :=
  push_post.mono (fun _ hs => ⟨rest, hrest, .inr ⟨item, hs⟩⟩) fun _ he => he

theorem decodeSmallInt_post : Post (decodeSmallInt item name) (fun v => ∃ b : Byte, item = [b] ∧ v = b.val) Clean := by
  refine (Post.ensure fun _ => clean _).bind fun _ _ hone => ?_
  obtain ⟨b, rfl⟩ := List.length_eq_one_iff.1 hone
  exact Post.ok ⟨b, rfl, rfl⟩

theorem decodeLock_post : Post (decodeLock item name) (fun _ => item.length = 8) Clean :=
  (Post.ensure fun _ => clean _).bind fun _ _ h => Post.pure h

theorem truthy_post : Post (truthy item) (fun b => b = true ↔ item = [1]) Clean := by
  unfold truthy
  split
  · rename_i hnil
    exact Post.ok (by simp [hnil])
  · split
    · rename_i hone
      exact Post.ok (by simp [hone])
    · exact Post.error (clean _)

theorem readPush_post {script : Bytes} {offset : ℕ} : Post (readPush script offset)
    (fun r => offset ≤ r.2 ∧ r.2 ≤ script.length ∧ r.1.length + (offset + 2) = r.2) Clean := by
  refine (Post.ensure fun _ => clean _).bind fun _ _ _ => (Post.ensure fun _ => clean _).bind fun _ _ _ => ?_
  refine (Post.ensure fun _ => clean _).bind fun _ _ hend => Post.pure ⟨?_, hend, ?_⟩
  · dsimp only
    omega
  · -- the slice is as long as it should be, since its end is inside the script
    rw [List.length_take, List.length_drop]
    omega

end Items

/-! ## Opcodes -/

section Opcodes

variable {C : Crypto} {context : ScriptContext} {script : Bytes} {stack : List Bytes}

theorem executeCheckmultisig_post : Post (executeCheckmultisig C context stack) (fun r => r.2 <:+ stack) Clean := by
  unfold executeCheckmultisig
  refine pop_post.bind fun count _ hcount => decodeSmallInt_post.bind fun pubkeyCount _ _ => ?_
  refine (Post.ensure fun _ => clean _).bind fun _ _ _ => (popMany_post pubkeyCount).bind fun keys _ hkeys => ?_
  refine (Post.ensure fun _ => clean _).bind fun _ _ _ => (Post.ensure fun _ => clean _).bind fun _ _ _ => ?_
  refine pop_post.bind fun item _ hitem => decodeSmallInt_post.bind fun threshold _ _ => ?_
  refine (Post.ensure fun _ => clean _).bind fun _ _ _ => (popMany_post threshold).bind fun sigs _ hsigs => ?_
  refine (Post.ensure fun _ => clean _).bind fun _ _ _ => Post.pure ?_
  dsimp only
  rw [hcount, hkeys.1, hitem, hsigs.1]
  exact ⟨count.1 :: (keys.1 ++ item.1 :: sigs.1), by simp⟩

/-- **One opcode** without operand. -/
theorem executeOp_post (o : StackOp) : Post (executeOp C context o stack) (Uses stack) Clean := by
  have hone : ∀ {item : Bytes} {rest : List Bytes}, stack = item :: rest → rest <:+ stack :=
    fun h => h ▸ List.suffix_cons _ _
  have htwo : ∀ {a b : Bytes} {rest rest' : List Bytes}, stack = a :: rest → rest = b :: rest' → rest' <:+ stack :=
    fun h h' => (h' ▸ List.suffix_cons _ _ : _ <:+ _).trans (hone h)
  unfold executeOp
  cases o with
  | verify =>
    refine pop_post.bind fun r _ hr => truthy_post.bind fun b _ _ => ?_
    exact (Post.ensure fun _ => clean _).bind fun _ _ _ => Post.pure ⟨r.2, hone hr, .inl rfl⟩
  | dup =>
    refine (Post.ensure fun _ => clean _).bind fun _ _ hne => ?_
    obtain ⟨item, rest, rfl⟩ := List.exists_cons_of_ne_nil hne
    exact push_uses List.suffix_rfl
  | hash256 => exact pop_post.bind fun r _ hr => push_uses (hone hr)
  | checksig => exact pop_post.bind fun r _ hr => pop_post.bind fun q _ hq => push_uses (htwo hr hq)
  | checkmultisig => exact executeCheckmultisig_post.bind fun r _ hr => push_uses hr
  | hashlock =>
    refine pop_post.bind fun r _ hr => pop_post.bind fun q _ hq => ?_
    exact (Post.ensure fun _ => clean _).bind fun _ _ _ => push_uses (htwo hr hq)
  | checklocktime => exact pop_post.bind fun r _ hr => decodeLock_post.bind fun _ _ _ => push_uses (hone hr)
  | checklockheight => exact pop_post.bind fun r _ hr => decodeLock_post.bind fun _ _ _ => push_uses (hone hr)

theorem execute_post {b : Byte} {offset : ℕ} (hoffset : offset ≤ script.length) :
    Post (execute C context script b offset stack)
      (fun r => offset ≤ r.1 ∧ r.1 ≤ script.length ∧ Uses stack r.2) Clean := by
  unfold execute
  split
  · exact Post.error (clean _)
  · refine readPush_post.bind fun r _ hr => (push_uses List.suffix_rfl).bind fun s _ hs => ?_
    exact Post.pure ⟨hr.1, hr.2.1, hs⟩
  · exact (executeOp_post _).bind fun s _ hs => Post.pure ⟨le_rfl, hoffset, hs⟩

/-- What one round of the loop does: it reads on, within the script. -/
structure Advances (script : Bytes) (m m' : Machine) : Prop where
  opCount : m'.opCount = m.opCount + 1
  ops : m'.opCount ≤ scriptMaxOps
  forward : m.offset < m'.offset
  inside : m'.offset ≤ script.length
  uses : Uses m.stack m'.stack

theorem step_post {m : Machine} (hm : m.offset < script.length) :
    Post (step C context script m) (Advances script m) Clean := by
  unfold step
  refine (Post.ensure fun _ => clean _).bind fun _ _ hops => ?_
  have hread : byteAt script m.offset = .ok (script.get ⟨m.offset, hm⟩) := by
    unfold byteAt
    rw [List.getElem?_eq_getElem hm]
    rfl
  rw [hread, Exn.ok_bind]
  refine (execute_post (show m.offset + 1 ≤ script.length from hm)).bind fun r _ hr => Post.pure ?_
  exact ⟨rfl, hops, hr.1, hr.2.1, hr.2.2⟩

end Opcodes

/-! ## The loop -/

section Loop

variable (C : Crypto) (context : ScriptContext) (script : Bytes)

/-- The loop goes from one machine to another in some rounds. -/
inductive Steps : ℕ → Machine → Machine → Prop
  | refl (m : Machine) : Steps 0 m m
  | step {n : ℕ} {m m' m'' : Machine} (hm : m.offset < script.length) (h : step C context script m = .ok m')
    (hrest : Steps n m' m'') : Steps (n + 1) m m''

variable {C context script}

/-- A machine within the bounds. -/
structure MachineOk (script : Bytes) (m : Machine) : Prop where
  inside : m.offset ≤ script.length
  ops : m.opCount ≤ scriptMaxOps
  stack : Bounded m.stack

theorem Advances.ok {m m' : Machine} (h : Advances script m m') (hm : MachineOk script m) : MachineOk script m' :=
  ⟨h.inside, h.ops, hm.stack.uses h.uses⟩

/-- **Every machine that the loop goes through is within the bounds.** -/
theorem steps_ok {n : ℕ} {m m' : Machine} (h : Steps C context script n m m') (hm : MachineOk script m) :
    MachineOk script m' ∧ m'.opCount = m.opCount + n := by
  induction h with
  | refl m => exact ⟨hm, rfl⟩
  | step hlt hstep hrest ih =>
    have hadvance := (step_post hlt).of_ok hstep
    obtain ⟨hok, hcount⟩ := ih (hadvance.ok hm)
    refine ⟨hok, ?_⟩
    rw [hcount, hadvance.opCount]
    omega

/-- **The loop ends** before its fuel is used up, since every round counts an operation. -/
theorem run_post {fuel : ℕ} {m : Machine} (hm : MachineOk script m) (hfuel : scriptMaxOps < fuel + m.opCount) :
    Post (run C context script fuel m)
      (fun m' => ∃ n, Steps C context script n m m' ∧ script.length ≤ m'.offset) Clean := by
  induction fuel generalizing m with
  | zero =>
    have hops := hm.ops
    omega
  | succ fuel ih =>
    unfold run
    by_cases hlt : m.offset < script.length
    · rw [if_pos hlt]
      refine (step_post hlt).bind fun m' hstep hadvance => ?_
      have hcount := hadvance.opCount
      refine (ih (hadvance.ok hm) (by omega)).mono ?_ fun _ he => he
      rintro m'' ⟨n, hsteps, hend⟩
      exact ⟨n + 1, .step hlt hstep hsteps, hend⟩
    · rw [if_neg hlt]
      exact Post.ok ⟨0, .refl m, not_lt.1 hlt⟩

theorem initialStack_post (items : List Bytes) : Post (initialStack items) Bounded Clean := by
  refine Post.foldlM (fun _ stack => Bounded stack) ⟨Nat.zero_le _, fun item hitem => by cases hitem⟩ ?_
  intro done item todo stack _ hstack
  refine (Post.ensure fun _ => clean _).bind fun _ _ hlt => ?_
  refine (Post.ensure fun _ => clean _).bind fun _ _ hitem => Post.pure ?_
  refine ⟨?_, List.forall_mem_cons.2 ⟨hitem, hstack.bytes⟩⟩
  rw [List.length_cons]
  omega

end Loop

/-- What holds of the execution of a script: it ends, with a stack within the bounds or with a
`ScriptError`; on the way it makes at most `SCRIPT_MAX_OPS` rounds, and every machine it goes
through is within the bounds and goes on from there within the script and above the bottom of
the stack. -/
structure CleanRun (C : Crypto) (script : Bytes) (context : ScriptContext) (items : List Bytes) : Prop where
  ends : Post (executeScript C script context items) (fun stack => Bounded stack) Clean
  rounds : ∀ stack, initialStack items = .ok stack → ∀ n m, Steps C context script n ⟨0, 0, stack⟩ m →
    n ≤ scriptMaxOps ∧ MachineOk script m ∧ (m.offset < script.length → Post (step C context script m) (Advances script m) Clean)
  verifies : verifyScript C script context items = true ↔
    ∃ stack, executeScript C script context items = .ok stack ∧ stack.getLast? = some [1]

theorem Bounded.reverse {stack : List Bytes} (h : Bounded stack) : Bounded stack.reverse := by
  refine ⟨?_, fun item hitem => h.bytes item (List.mem_reverse.1 hitem)⟩
  rw [List.length_reverse]
  exact h.items

theorem start_ok {script : Bytes} {stack : List Bytes} (h : Bounded stack) : MachineOk script ⟨0, 0, stack⟩ :=
  ⟨Nat.zero_le _, Nat.zero_le _, h⟩

/-- **Script execution is bounded and fails cleanly.** -/
theorem executeScript_clean (C : Crypto) (script : Bytes) (context : ScriptContext) (items : List Bytes) :
    CleanRun C script context items := by
  refine ⟨?_, ?_, ?_⟩
  · unfold executeScript
    refine (Post.ensure fun _ => clean _).bind fun _ _ _ => (initialStack_post items).bind fun stack _ hstack => ?_
    refine (run_post (start_ok hstack) (by simp)).bind fun m _ hm => ?_
    obtain ⟨n, hsteps, -⟩ := hm
    exact Post.pure (steps_ok hsteps (start_ok hstack)).1.stack.reverse
  · intro stack hstack n m hsteps
    have hbounded : Bounded stack := (initialStack_post items).of_ok hstack
    -- each step counts an operation, and the count is bounded
    obtain ⟨hok, hcount⟩ := steps_ok hsteps (start_ok hbounded)
    have hops := hok.ops
    refine ⟨?_, hok, fun hlt => step_post hlt⟩
    dsimp only at hcount
    omega
  · unfold verifyScript
    cases executeScript C script context items with
    | error e =>
      constructor
      · intro h
        cases h
      · rintro ⟨stack, h, -⟩
        cases h
    | ok stack =>
      dsimp only
      cases hlast : stack.getLast? with
      | none =>
        constructor
        · intro h
          cases h
        · rintro ⟨stack', h, htop⟩
          cases h
          rw [hlast] at htop
          cases htop
      | some item =>
        have htruthy : Post (truthy item) (fun b => b = true ↔ item = [1]) Clean := truthy_post
        -- there is one final stack, so its top is the item that is judged
        have hunique : (∃ stack', (Except.ok stack : Except ScriptFailure (List Bytes)) = .ok stack' ∧
            stack'.getLast? = some [1]) ↔ item = [1] := by
          constructor
          · rintro ⟨stack', h, htop⟩
            cases h
            rw [hlast, Option.some.injEq] at htop
            exact htop
          · rintro rfl
            exact ⟨stack, rfl, hlast⟩
        rw [hunique]
        dsimp only
        cases hres : truthy item with
        | error e =>
          refine iff_of_false Bool.false_ne_true ?_
          rintro rfl
          cases hres
        | ok b =>
          rw [hres] at htruthy
          exact htruthy

end TensorPow.Script
