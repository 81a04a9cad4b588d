import TensorPow.Proof.Ghostdag

/-!
# Blue scores along the edges of the DAG

* `dataOf_ok`: how the metadata of a fruit is put together.
* `sortedByScore_sorted`: the order by score is strictly ascending in (score, timestamp,
  hash), so an ancestor comes first exactly where the score does not drop.
* `topologicalOrder_iff`: when `topological_order` is topological.
* `scoreIn_lt_of_parent`: with unit work the score grows along every edge.
* `blues_greedy`: every blue had at most `k` blues in its anticone when it was added.
-/

namespace TensorPow

open Sorted

variable {η : Type} [LinearOrder η]

namespace BlockDAG

variable {d : BlockDAG η} {h x y p : η} {k : ℤ} {m : Table η (GhostdagData η)} {data : GhostdagData η}

/-! ## How metadata is put together -/

/-- The metadata of a fruit with parents. -/
structure Merged (d : BlockDAG η) (k : ℤ) (m : Table η (GhostdagData η)) (h : η) (b : FruitBlock η)
    (data : GhostdagData η) (sp : η) (spData : GhostdagData η) (candidates : List η) (blues : Finset η)
    (works : List ℕ) : Prop where
  select : selectParent b.parents m = .ok sp
  parent : sp ∈ b.parents
  selected : m[sp]? = some spData
  order : ∃ s, d.sortedByScore m s = .ok candidates ∧ ∀ x ∈ s, ∃ p ∈ b.parents, d.InPast p x
  loop : candidates.foldlM (d.tryBlue k) spData.blues = .ok blues
  blues_eq : data.blues = insert h blues
  score : data.blueScore = data.blues.card
  works_ok : ((ascending data.blues).mapM fun b => do
    let block ← item d.blocks b
    return block.work) = .ok works
  work : data.accumulatedBlueWork = saturatingBlueWork 0 works

/-- What the metadata of a fruit is: that of a root, or merged from its parents'. -/
theorem dataOf_ok (hd : d.WF) {b : FruitBlock η} (hb : d.blocks[h]? = some b)
    (hm : d.Ready m h) (hof : d.dataOf k m h = .ok data) :
    (b.parents = [] ∧ data.blues = {h} ∧ data.blueScore = 1 ∧ data.accumulatedBlueWork = b.work) ∨
    ∃ sp spData candidates blues works, d.Merged k m h b data sp spData candidates blues works := by
  have hparent : ∀ p ∈ b.parents, d.Parent p h := fun p hp => ⟨b, hb, hp⟩
  unfold dataOf at hof
  obtain ⟨b', hb', hof⟩ := Exn.bind_ok.1 hof
  rw [item_ok, hb] at hb'
  cases hb'
  split at hof
  · rename_i hroot
    cases hof
    exact .inl ⟨hroot, rfl, rfl, rfl⟩
  rename_i hne
  obtain ⟨sp, hsp, hof⟩ := Exn.bind_ok.1 hof
  obtain ⟨spData, hspData, hof⟩ := Exn.bind_ok.1 hof
  obtain ⟨spPast, hspPast, hof⟩ := Exn.bind_ok.1 hof
  obtain ⟨mergePast, hmerge, hof⟩ := Exn.bind_ok.1 hof
  obtain ⟨candidates, hcands, hof⟩ := Exn.bind_ok.1 hof
  obtain ⟨blues, hblues, hof⟩ := Exn.bind_ok.1 hof
  obtain ⟨past, hpast, hof⟩ := Exn.bind_ok.1 hof
  obtain ⟨works, hworks, hof⟩ := Exn.bind_ok.1 hof
  cases hof
  have hspmem : sp ∈ b.parents := (selectParent_post hne fun p hp =>
    (hm p (.single (hparent p hp))).imp fun _ => And.left).of_ok hsp
  refine .inr ⟨sp, spData, candidates, blues, works, hsp, hspmem, item_ok.1 hspData, ⟨_, hcands, fun x hx => ?_⟩,
    hblues, rfl, rfl, hworks, rfl⟩
  obtain ⟨hx, hnot⟩ := Finset.mem_sdiff.1 hx
  have hknown : ∀ p ∈ b.parents.filter (· ≠ sp), ∃ pb, d.blocks[p]? = some pb := fun p hp =>
    hd.inPast hb (.parent (hparent p (List.mem_of_mem_filter hp)))
  obtain ⟨p, hp, hpx⟩ := ((pastOfParents_post hd hknown).of_ok hmerge x).1 hx
  exact ⟨p, List.mem_of_mem_filter hp, hpx⟩

/-- The selected parent has the most accumulated blue work. -/
theorem selectParent_max {l : List η} (h : selectParent l m = .ok p) {q : η} (hq : q ∈ l) :
    ∃ dp dq, m[p]? = some dp ∧ m[q]? = some dq ∧ dq.accumulatedBlueWork ≤ dp.accumulatedBlueWork := by
  obtain ⟨keyed, hkeyed, h⟩ := Exn.bind_ok.1 h
  have hmem := Exn.mapM_ok_mem hkeyed
  have hkey : ∀ {a : η} {c : ℤ × η}, (do
      let data ← item m a
      return ((-(data.accumulatedBlueWork : ℤ), a) : ℤ × η)) = Except.ok c →
      ∃ da, m[a]? = some da ∧ c = (-(da.accumulatedBlueWork : ℤ), a) := by
    intro a c hc
    obtain ⟨da, hda, hc⟩ := Exn.bind_ok.1 hc
    exact ⟨da, item_ok.1 hda, (Exn.pure_ok.1 hc).symm⟩
  split at h
  · cases h
  rename_i c cs hcons
  cases h
  have hsorted := pairwise_sortBy (fun q => (toLex q : ℤ ×ₗ η)) keyed
  have hc : c ∈ keyed := by
    rw [← @mem_sortBy _ _ _ (fun q => (toLex q : ℤ ×ₗ η)), hcons]
    exact List.mem_cons_self
  obtain ⟨a, -, ha⟩ := hmem.2 c hc
  obtain ⟨dp, hdp, rfl⟩ := hkey ha
  obtain ⟨e, he, hqe⟩ := hmem.1 q hq
  obtain ⟨dq, hdq, rfl⟩ := hkey hqe
  refine ⟨dp, dq, hdp, hdq, ?_⟩
  rw [← @mem_sortBy _ _ _ (fun q => (toLex q : ℤ ×ₗ η)), hcons] at he
  -- the head of the sorted list has the least key, which is the greatest work
  rcases List.mem_cons.1 he with he | he
  · rw [Prod.mk.injEq] at he
    have := he.1
    omega
  · rw [hcons] at hsorted
    have hle := (List.pairwise_cons.1 hsorted).1 _ he
    rw [Prod.Lex.toLex_le_toLex] at hle
    rcases hle with hle | ⟨hle, -⟩ <;> simp only at hle <;> omega

/-! ## The order by score -/

/-- The blue score in the table. -/
def scoreIn (m : Table η (GhostdagData η)) (x : η) : ℕ := (m[x]?.map (·.blueScore)).getD 0

/-- The timestamp of a fruit. -/
def timeOf (d : BlockDAG η) (x : η) : ℕ := (d.blocks[x]?.map (·.timestampMs)).getD 0

/-- What `sortedByScore` sorts by. -/
def scoreKey (d : BlockDAG η) (m : Table η (GhostdagData η)) (x : η) : ℕ ×ₗ ℕ ×ₗ η :=
  toLex (scoreIn m x, toLex (d.timeOf x, x))

/-- The list is strictly ascending in (score, timestamp, hash). -/
theorem sortedByScore_sorted {s : Finset η} {l : List η} (h : d.sortedByScore m s = .ok l) :
    l.Pairwise fun x y => d.scoreKey m x < d.scoreKey m y := by
  have hnodup : l.Nodup := (sortedByScore_perm h).nodup_iff.2 (nodup_ascending s)
  obtain ⟨qs, hqs, h⟩ := Exn.bind_ok.1 h
  rw [← Exn.pure_ok.1 h] at hnodup ⊢
  have hkey : ∀ q ∈ qs, (toLex (q.1, toLex (q.2.1, q.2.2)) : ℕ ×ₗ ℕ ×ₗ η) = d.scoreKey m q.2.2 := by
    intro q hq
    obtain ⟨x, -, hx⟩ := (Exn.mapM_ok_mem hqs).2 q hq
    obtain ⟨data, hdata, hx⟩ := Exn.bind_ok.1 hx
    obtain ⟨b, hb, hx⟩ := Exn.bind_ok.1 hx
    rw [item_ok] at hdata hb
    cases hx
    simp [scoreKey, scoreIn, timeOf, hdata, hb]
  have hsorted := pairwise_sortBy (fun q => (toLex (q.1, toLex (q.2.1, q.2.2)) : ℕ ×ₗ ℕ ×ₗ η)) qs
  rw [List.pairwise_map]
  refine (hsorted.and (List.pairwise_map.1 hnodup)).imp_of_mem ?_
  rintro a b ha hb ⟨hle, hne⟩
  rw [hkey a (mem_sortBy.1 ha), hkey b (mem_sortBy.1 hb)] at hle
  refine lt_of_le_of_ne hle fun heq => hne ?_
  simp only [scoreKey, EmbeddingLike.apply_eq_iff_eq, Prod.mk.injEq] at heq
  exact heq.2.2

/-- In an ascending list, what has the smaller key comes before. -/
theorem mem_before_iff {l before after : List η} (hl : l.Pairwise fun x y => d.scoreKey m x < d.scoreKey m y)
    (hsplit : l = before ++ x :: after) (hy : y ∈ l) : y ∈ before ↔ d.scoreKey m y < d.scoreKey m x := by
  subst hsplit
  obtain ⟨-, hafter, hbefore⟩ := List.pairwise_append.1 hl
  constructor
  · exact fun h => hbefore y h x List.mem_cons_self
  · intro hlt
    rcases List.mem_append.1 hy with hy | hy
    · exact hy
    · rcases List.mem_cons.1 hy with rfl | hy
      · exact absurd hlt (lt_irrefl _)
      · exact absurd hlt (lt_asymm ((List.pairwise_cons.1 hafter).1 y hy))

/-- Every listed fruit comes after all of its ancestors. -/
def Topological (d : BlockDAG η) (l : List η) : Prop :=
  ∀ before x after, l = before ++ x :: after → ∀ y, d.Ancestor y x → y ∈ before

/-- An older fruit has the smaller key as soon as its score is not larger. -/
theorem scoreKey_lt_iff {bx bh : FruitBlock η} (hx : d.blocks[x]? = some bx) (hh : d.blocks[h]? = some bh)
    (hlt : bx.timestampMs < bh.timestampMs) :
    d.scoreKey m x < d.scoreKey m h ↔ scoreIn m x ≤ scoreIn m h := by
  have htime : d.timeOf x < d.timeOf h := by simpa [timeOf, hx, hh] using hlt
  rw [scoreKey, scoreKey, Prod.Lex.toLex_lt_toLex, Prod.Lex.toLex_lt_toLex]
  constructor
  · rintro (hlt | ⟨heq, -⟩)
    · exact hlt.le
    · exact heq.le
  · intro hle
    rcases hle.lt_or_eq with hlt | heq
    · exact .inl hlt
    · exact .inr ⟨heq, .inl htime⟩

/-- The list of a past, by score, is topological when no edge inside it drops the score. -/
theorem topological_iff (hd : d.WF) {l : List η} (hmem : ∀ x, x ∈ l ↔ d.InPast h x)
    (hl : l.Pairwise fun x y => d.scoreKey m x < d.scoreKey m y) :
    d.Topological l ↔ ∀ p c, d.InPast h c → d.Parent p c → scoreIn m p ≤ scoreIn m c := by
  have hedge : ∀ {p c}, d.InPast h c → d.Parent p c → ∃ pb cb, d.blocks[p]? = some pb ∧ d.blocks[c]? = some cb ∧
      pb.timestampMs < cb.timestampMs := by
    rintro p c - ⟨cb, hcb, hp⟩
    obtain ⟨pb, hpb, hlt⟩ := hd.parent hcb hp
    exact ⟨pb, cb, hpb, hcb, hlt⟩
  constructor
  · intro htop p c hc hp
    obtain ⟨pb, cb, hpb, hcb, hlt⟩ := hedge hc hp
    obtain ⟨before, after, hsplit⟩ := List.append_of_mem ((hmem c).2 hc)
    have hbefore := htop before c after hsplit p (.single hp)
    rw [mem_before_iff hl hsplit ((hmem p).2 (hc.trans (.parent hp)))] at hbefore
    exact (scoreKey_lt_iff hpb hcb hlt).1 hbefore
  · intro hscore before x after hsplit y hy
    have hx : d.InPast h x := (hmem x).1 (hsplit ▸ by simp)
    refine (mem_before_iff hl hsplit ((hmem y).2 (hx.trans (.inr hy)))).2 ?_
    -- along a path of edges every step raises the key
    induction hy using Relation.TransGen.head_induction_on with
    | single hp =>
      obtain ⟨pb, cb, hpb, hcb, hlt⟩ := hedge hx hp
      exact (scoreKey_lt_iff hpb hcb hlt).2 (hscore _ _ hx hp)
    | head hp hrest ih =>
      have hc : d.InPast h _ := hx.trans (.inr hrest)
      obtain ⟨pb, cb, hpb, hcb, hlt⟩ := hedge hc hp
      exact ((scoreKey_lt_iff hpb hcb hlt).2 (hscore _ _ hc hp)).trans ih

/-- `ghostdag_data` gives `p` no larger a blue score than `c`. -/
def ScoreLe (d : BlockDAG η) (k : ℤ) (p c : η) : Prop :=
  ∃ pData cData d₁ d₂, d.ghostdagData p k = .ok (pData, d₁) ∧ d.ghostdagData c k = .ok (cData, d₂) ∧
    pData.blueScore ≤ cData.blueScore

theorem scoreLe_iff {d' : BlockDAG η} (hm : d.ghostdagMetadata k = .ok (m, d')) (hset : d.Settled k m)
    {bx bh : FruitBlock η} (hx : d.blocks[x]? = some bx) (hh : d.blocks[h]? = some bh) :
    d.ScoreLe k x h ↔ scoreIn m x ≤ scoreIn m h := by
  obtain ⟨dx, hdx, -⟩ := hset x bx hx
  obtain ⟨dh, hdh, -⟩ := hset h bh hh
  have hval : ∀ {z : η} {bz : FruitBlock η} {dz : GhostdagData η}, d.blocks[z]? = some bz → m[z]? = some dz →
      d.ghostdagData z k = .ok (dz, d') := by
    intro z bz dz hz hdz
    simp [ghostdagData, getBlock, hz, hm, item, hdz]
  unfold ScoreLe
  rw [hval hx hdx, hval hh hdh]
  simp only [scoreIn, hdx, hdh, Option.map_some, Option.getD_some]
  constructor
  · rintro ⟨_, _, _, _, hp, hc, hle⟩
    cases hp
    cases hc
    exact hle
  · exact fun hle => ⟨dx, dh, d', d', rfl, rfl, hle⟩

/-- **When `topological_order` is topological.** It lists the tip and its ancestors once
each, and every fruit after all its ancestors exactly if the blue score drops along no
edge of that past. -/
theorem topologicalOrder_iff {tip : η} (hd : Built d) (hk : 0 ≤ k) (htip : ∃ b, d.blocks[tip]? = some b) :
    ∃ l d', d.topologicalOrder tip k = .ok (l, d') ∧ l.Nodup ∧ (∀ x, x ∈ l ↔ d.InPast tip x) ∧
      (d.Topological l ↔ ∀ p c, d.InPast tip c → d.Parent p c → d.ScoreLe k p c) := by
  obtain ⟨b, hb⟩ := htip
  have hwf := hd.wf
  obtain ⟨m, d', hm, hset, -⟩ := ghostdagMetadata_settled hwf hk
  obtain ⟨-, -, hblocks, hanc, -⟩ := ghostdagMetadata_ok hwf hm
  obtain ⟨past, hpast, hmem⟩ := hwf.ancestors_ok hb
  have hknown : ∀ x ∈ insert tip past, ∃ xb, d.blocks[x]? = some xb := by
    intro x hx
    rw [Finset.mem_insert, hmem] at hx
    exact hwf.inPast hb hx
  obtain ⟨l, hl, hlmem⟩ := (sortedByScore_post (m := m) (fun x hx => by
    obtain ⟨xb, hxb⟩ := hknown x hx
    obtain ⟨data, hdata, -⟩ := hset x xb hxb
    exact ⟨data, hdata⟩) hknown).returns
  have hin : ∀ x, x ∈ l ↔ d.InPast tip x := by
    intro x
    rw [hlmem, Finset.mem_insert, hmem, InPast]
  refine ⟨l, d', ?_, (sortedByScore_perm hl).nodup_iff.2 (nodup_ascending _), hin, ?_⟩
  · -- the metadata query changes neither blocks nor pasts
    have hanc' : d'.ancestors tip = .ok past := by
      rw [← hpast, ancestors, ancestors, getBlock, getBlock, hblocks, hanc]
    have hl' : d'.sortedByScore m (insert tip past) = .ok l := by
      rw [← hl]
      exact sortedByScore_congr (fun _ _ => rfl) fun x _ => by rw [hblocks]
    unfold topologicalOrder
    simp only [hm, Exn.ok_bind, hanc', hl']
    rfl
  · rw [topological_iff hwf hin (sortedByScore_sorted hl)]
    refine forall₄_congr fun p c hc hp => ?_
    obtain ⟨cb, hcb⟩ := hwf.inPast hb hc
    obtain ⟨pb, hpb⟩ := hwf.inPast hb (hc.trans (.parent hp))
    exact (scoreLe_iff hm hset hpb hcb).symm

/-- The DAG of a list of blocks that can be added in this order. -/
def dagOf (blocks : List (FruitBlock η)) : BlockDAG η :=
  match blocks.foldlM addBlock BlockDAG.empty with
  | .ok d => d
  | .error _ => BlockDAG.empty

theorem built_dagOf (blocks : List (FruitBlock η)) : Built (dagOf blocks) := by
  unfold dagOf
  split
  · rename_i h
    exact built_of_foldlM h
  · exact .empty

/-- A root, a heavy child, a light chain of three, and a fruit that merges both. -/
def heavyFork : List (FruitBlock ℕ) :=
  [⟨1, [], 1, 1, by decide, by decide, by decide, by decide⟩,
   ⟨2, [1], 2, 100, by decide, by decide, by decide, by decide⟩,
   ⟨3, [1], 2, 1, by decide, by decide, by decide, by decide⟩,
   ⟨4, [3], 3, 1, by decide, by decide, by decide, by decide⟩,
   ⟨5, [4], 4, 1, by decide, by decide, by decide, by decide⟩,
   ⟨6, [2, 5], 5, 1, by decide, by decide, by decide, by decide⟩]

/-- The merging fruit selects the heavy side, so its score is smaller than that of its other
parent: it is listed before that parent. -/
theorem topologicalOrder_not_topological :
    Built (dagOf heavyFork) ∧ ((dagOf heavyFork).topologicalOrder 6 0).map Prod.fst = .ok [1, 2, 3, 4, 6, 5] ∧
      (dagOf heavyFork).Ancestor 5 6 ∧ ¬(dagOf heavyFork).Topological [1, 2, 3, 4, 6, 5] := by
  have hblock : (dagOf heavyFork).blocks[6]? = heavyFork[5]? := by decide +kernel
  have hparent : (dagOf heavyFork).Ancestor 5 6 := .single ⟨_, hblock, by decide⟩
  refine ⟨built_dagOf _, by decide +kernel, hparent, fun htop => ?_⟩
  have := htop [1, 2, 3, 4] 6 [5] rfl 5 hparent
  simp at this

/-- The order of the light chain, whose scores grow. -/
theorem topologicalOrder_iff_chain :
    ∃ l d', (dagOf heavyFork).topologicalOrder 5 0 = .ok (l, d') ∧ l.Nodup ∧
      (∀ x, x ∈ l ↔ (dagOf heavyFork).InPast 5 x) ∧
      ((dagOf heavyFork).Topological l ↔ ∀ p c, (dagOf heavyFork).InPast 5 c → (dagOf heavyFork).Parent p c →
        (dagOf heavyFork).ScoreLe 0 p c) := by
  have hblock : (dagOf heavyFork).blocks[5]? = heavyFork[4]? := by decide +kernel
  exact topologicalOrder_iff (built_dagOf _) (le_refl 0) ⟨_, hblock⟩

/-! ## Unit work -/

theorem saturatingBlueWork_ones {l : List ℕ} (hl : ∀ w ∈ l, w = 1) {total : ℕ}
    (hle : total + l.length ≤ u64Max) : saturatingBlueWork total l = total + l.length := by
  induction l generalizing total with
  | nil => rfl
  | cons w l ih =>
    cases hl w List.mem_cons_self
    rw [List.length_cons] at hle ⊢
    rw [saturatingBlueWork]
    split
    · omega
    · rw [ih (fun v hv => hl v (List.mem_cons_of_mem _ hv)) (by omega)]
      omega

section Unit

variable (hd : d.WF) (hm : d.Settled k m) (hunit : ∀ (x : η) b, d.blocks[x]? = some b → b.work = 1)
  (hsize : d.blocks.size ≤ u64Max)
include hd hm hunit hsize

/-- With unit work the accumulated blue work counts the blues. -/
theorem work_eq_score {b : FruitBlock η} (hb : d.blocks[h]? = some b) (hdata : m[h]? = some data) :
    data.accumulatedBlueWork = data.blueScore := by
  obtain ⟨data', hdata', hof, hgood, -⟩ := hm h b hb
  cases hdata.symm.trans hdata'
  rcases dataOf_ok hd hb (hm.ready hd hb) hof with
    ⟨-, -, hscore, hwork⟩ | ⟨sp, spData, candidates, blues, works, hmerged⟩
  · rw [hscore, hwork, hunit h b hb]
  · have hknown : ∀ x ∈ ascending data.blues, ∃ xb, d.blocks[x]? = some xb := fun x hx =>
      hd.inPast hb (hgood.blues_inPast (mem_ascending.1 hx))
    have hworks : works = (ascending data.blues).map fun _ => 1 := by
      refine Except.ok.inj (hmerged.works_ok.symm.trans (Exn.mapM_eq_map fun x hx => ?_))
      obtain ⟨xb, hxb⟩ := hknown x hx
      rw [item, hxb, Exn.get_some, Exn.ok_bind, hunit x xb hxb]
      rfl
    have hlen : works.length = data.blues.card := by rw [hworks, List.length_map, length_ascending]
    have hcard : data.blues.card ≤ d.blocks.size := by
      rw [← length_ascending data.blues]
      exact Table.length_le_size _ (nodup_ascending _) hknown
    rw [hmerged.work, saturatingBlueWork_ones (by simp [hworks]) (by omega), hlen, hmerged.score, Nat.zero_add]

/-- **With unit work the blue score grows along every edge**: the selected parent has the
largest score, and a fruit is blue in addition to its selected parent's blues. -/
theorem scoreIn_lt_of_parent (hp : d.Parent p h) : scoreIn m p < scoreIn m h := by
  obtain ⟨b, hb, hmem⟩ := hp
  obtain ⟨data, hdata, hof, hgood, hsel⟩ := hm h b hb
  rcases dataOf_ok hd hb (hm.ready hd hb) hof with
    ⟨hroot, -⟩ | ⟨sp, spData, candidates, blues, works, hmerged⟩
  · rw [hroot] at hmem
    cases hmem
  obtain ⟨_, dp, hdsp, hdp, hle⟩ := selectParent_max hmerged.select hmem
  cases hdsp.symm.trans hmerged.selected
  obtain ⟨pb, hpb, -⟩ := hd.parent hb hmem
  obtain ⟨spb, hspb, -⟩ := hd.parent hb hmerged.parent
  rw [work_eq_score hd hm hunit hsize hpb hdp, work_eq_score hd hm hunit hsize hspb hdsp] at hle
  obtain ⟨_, hdsp', -, hspgood, -⟩ := hm sp spb hspb
  cases hdsp.symm.trans hdsp'
  -- the blues of the selected parent, and `h`, which is not in its past
  have hsub : spData.blues ⊆ blues :=
    Exn.foldlM_inv (fun _ (s : Finset η) => spData.blues ⊆ s) (fun _ c _ s s' _ ih hstep => by
      obtain ⟨size, -, hs'⟩ := Exn.bind_ok.1 hstep
      cases hs'
      split
      · exact ih.trans (Finset.subset_insert _ _)
      · exact ih) subset_rfl hmerged.loop
  have hself : h ∉ spData.blues := by
    intro hh
    have hpast : d.Ancestor h h := by
      rcases hspgood.blues_inPast hh with heq | hanc
      · exact .single ⟨b, hb, heq.symm ▸ hmerged.parent⟩
      · exact hanc.tail ⟨b, hb, hmerged.parent⟩
    exact hd.irrefl hb hpast
  have hcard : spData.blues.card < data.blues.card := by
    rw [hmerged.blues_eq]
    refine Finset.card_lt_card ⟨hsub.trans (Finset.subset_insert _ _), fun hback => hself ?_⟩
    exact hback (Finset.mem_insert_self _ _)
  simp only [scoreIn, hdp, hdata, Option.map_some, Option.getD_some]
  rw [hspgood.score] at hle
  rw [hgood.score]
  omega

end Unit

/-! ## Anticones -/

/-- Neither is the other, or an ancestor of the other. -/
def Anticone (d : BlockDAG η) (x y : η) : Prop := x ≠ y ∧ ¬d.Ancestor x y ∧ ¬d.Ancestor y x

open Classical in
/-- The members of a set in the anticone of `x`. -/
noncomputable def anticoneIn (d : BlockDAG η) (s : Finset η) (x : η) : Finset η := s.filter (d.Anticone x)

theorem mem_anticoneIn {s : Finset η} : y ∈ d.anticoneIn s x ↔ y ∈ s ∧ d.Anticone x y := by
  classical
  rw [anticoneIn, Finset.mem_filter]

theorem isRelated_ok (hd : d.WF) (hx : ∃ b, d.blocks[x]? = some b) (hy : ∃ b, d.blocks[y]? = some b) {r : Bool}
    (h : d.isRelated x y = .ok r) : r = true ↔ ¬d.Anticone x y := by
  obtain ⟨_, hx⟩ := hx
  obtain ⟨_, hy⟩ := hy
  obtain ⟨sx, hsx, hmx⟩ := hd.ancestors_ok hx
  obtain ⟨sy, hsy, hmy⟩ := hd.ancestors_ok hy
  unfold isRelated at h
  rw [hsx, hsy] at h
  unfold Anticone
  rw [← hmx, ← hmy]
  split at h
  · rename_i heq
    cases h
    simp [heq]
  · rename_i hne
    simp only [Exn.ok_bind] at h
    split at h
    · rename_i hmem
      cases h
      simp [hmem]
    · rename_i hmem
      cases h
      simp [hne, hmem]

/-- `_anticone_size` counts the anticone. -/
theorem anticoneSize_ok (hd : d.WF) {s : Finset η} (hx : ∃ b, d.blocks[x]? = some b)
    (hs : ∀ y ∈ s, ∃ b, d.blocks[y]? = some b) {size : ℕ} (h : d.anticoneSize x s = .ok size) :
    size = (d.anticoneIn s x).card := by
  classical
  have hcount : size = ((ascending s).filter fun y => decide (d.Anticone x y)).length := by
    refine Exn.foldlM_inv (fun done (n : ℕ) => n = (done.filter fun y => decide (d.Anticone x y)).length) ?_ rfl h
    intro done y todo n n' hl ih hstep
    obtain ⟨r, hr, hn'⟩ := Exn.bind_ok.1 hstep
    have hy : y ∈ s := mem_ascending.1 (hl ▸ by simp)
    have hrel := isRelated_ok hd hx (hs y hy) hr
    rw [List.filter_append, List.length_append, ← ih, ← Exn.pure_ok.1 hn']
    by_cases ha : d.Anticone x y
    · rw [if_neg fun hr => hrel.1 hr ha]
      simp [ha]
    · rw [if_pos (hrel.2 ha)]
      simp [ha]
  rw [hcount, ← List.toFinset_card_of_nodup ((nodup_ascending s).filter _)]
  congr 1
  ext y
  rw [List.mem_toFinset, List.mem_filter, mem_ascending, mem_anticoneIn, decide_eq_true_eq]

/-- A list in which every member has at most `k` earlier members in its anticone. -/
def Greedy (d : BlockDAG η) (k : ℤ) (l : List η) : Prop :=
  ∀ before x after, l = before ++ x :: after → ((d.anticoneIn before.toFinset x).card : ℤ) ≤ k

theorem Greedy.concat {l : List η} (hl : d.Greedy k l) (hx : ((d.anticoneIn l.toFinset x).card : ℤ) ≤ k) :
    d.Greedy k (l ++ [x]) := by
  intro before y after hsplit
  rcases List.eq_nil_or_concat after with rfl | ⟨after, z, rfl⟩
  · obtain ⟨rfl, hy⟩ := List.append_inj' hsplit rfl
    cases hy
    exact hx
  · rw [List.concat_eq_append, ← List.cons_append, ← List.append_assoc] at hsplit
    obtain ⟨rfl, -⟩ := List.append_inj' hsplit rfl
    exact hl before y after rfl

/-- `s` can be listed greedily. -/
def GreedySet (d : BlockDAG η) (k : ℤ) (s : Finset η) : Prop := ∃ l : List η, l.Nodup ∧ l.toFinset = s ∧ d.Greedy k l

theorem GreedySet.insert {s : Finset η} (hs : d.GreedySet k s) (hx : ((d.anticoneIn s x).card : ℤ) ≤ k) :
    d.GreedySet k (insert x s) := by
  obtain ⟨l, hnodup, rfl, hl⟩ := hs
  by_cases hmem : x ∈ l
  · exact ⟨l, hnodup, by rw [Finset.insert_eq_self.2 (List.mem_toFinset.2 hmem)], hl⟩
  · refine ⟨l ++ [x], ?_, ?_, hl.concat hx⟩
    · rw [List.nodup_append]
      refine ⟨hnodup, List.nodup_singleton x, ?_⟩
      rintro y hy z hz rfl
      exact hmem (List.mem_singleton.1 hz ▸ hy)
    · ext y
      simp

/-- One merge candidate. -/
theorem GreedySet.tryBlue (hd : d.WF) {s t : Finset η} (hs : d.GreedySet k s) (hx : ∃ b, d.blocks[x]? = some b)
    (hknown : ∀ y ∈ s, ∃ b, d.blocks[y]? = some b) (h : d.tryBlue k s x = .ok t) : d.GreedySet k t := by
  obtain ⟨size, hsize, ht⟩ := Exn.bind_ok.1 h
  have hcard := anticoneSize_ok hd hx hknown hsize
  rw [← Exn.pure_ok.1 ht]
  split
  · rename_i hle
    exact hs.insert (hcard ▸ hle)
  · exact hs

/-- The blues of every fruit can be listed greedily. -/
theorem greedySet_blues (hd : d.WF) (hk : 0 ≤ k) (hm : d.Settled k m) {b : FruitBlock η}
    (hb : d.blocks[h]? = some b) (hdata : m[h]? = some data) : d.GreedySet k data.blues := by
  have hself : ∀ {s : Finset η} {x : η}, (∀ y ∈ s, d.InPast x y) → ((d.anticoneIn s x).card : ℤ) ≤ k := by
    intro s x hs
    have hempty : d.anticoneIn s x = ∅ := by
      refine Finset.eq_empty_of_forall_notMem fun y hy => ?_
      obtain ⟨hy, hne, -, hanc⟩ := mem_anticoneIn.1 hy
      rcases hs y hy with heq | hyx
      · exact hne heq.symm
      · exact hanc hyx
    rw [hempty]
    exact_mod_cast hk
  -- ancestors are strictly older: induction on the timestamp
  induction ht : b.timestampMs using Nat.strong_induction_on generalizing h b data with
  | _ t ih =>
    subst ht
    obtain ⟨data', hdata', hof, hgood, -⟩ := hm h b hb
    cases hdata.symm.trans hdata'
    rcases dataOf_ok hd hb (hm.ready hd hb) hof with
      ⟨-, hblues, -⟩ | ⟨sp, spData, candidates, blues, works, hmerged⟩
    · rw [hblues, ← Finset.insert_empty]
      exact GreedySet.insert ⟨[], List.nodup_nil, rfl, fun before x after h => by simp at h⟩ (hself (by simp))
    · rw [hmerged.blues_eq]
      obtain ⟨spb, hspb, hlt⟩ := hd.parent hb hmerged.parent
      have hparent : ∀ p ∈ b.parents, d.InPast h p := fun p hp => .parent ⟨b, hb, hp⟩
      have hpast : ∀ c ∈ candidates, d.InPast h c := by
        intro c hc
        obtain ⟨s, hcands, hs⟩ := hmerged.order
        rw [(sortedByScore_perm hcands).mem_iff, mem_ascending] at hc
        obtain ⟨p, hp, hpc⟩ := hs c hc
        exact (hparent p hp).trans hpc
      have hstart : ∀ y ∈ spData.blues, d.InPast h y := by
        intro y hy
        obtain ⟨_, hspData, -, hspgood, -⟩ := hm sp spb hspb
        cases hmerged.selected.symm.trans hspData
        exact (hparent sp hmerged.parent).trans (hspgood.blues_inPast hy)
      obtain ⟨hgreedy, hin⟩ := Exn.foldlM_inv
        (fun _ (s : Finset η) => d.GreedySet k s ∧ ∀ y ∈ s, d.InPast h y) (fun _ c _ s t hl ⟨hs, hin⟩ hstep => by
          have hc := hpast c (hl ▸ by simp)
          have hknown : ∀ y ∈ s, ∃ yb, d.blocks[y]? = some yb := fun y hy => hd.inPast hb (hin y hy)
          refine ⟨hs.tryBlue hd (hd.inPast hb hc) hknown hstep, fun y hy => ?_⟩
          rcases (tryBlue_post hd (hd.inPast hb hc) hknown).of_ok hstep with rfl | rfl
          · exact hin y hy
          · rcases Finset.mem_insert.1 hy with rfl | hy
            · exact hc
            · exact hin y hy)
        ⟨ih _ hlt hspb hmerged.selected rfl, hstart⟩ hmerged.loop
      exact hgreedy.insert (hself hin)

/-- **Every blue had at most `k` blues in its anticone when it was added**: the blue set of a
fruit can be listed so that every member has at most `k` earlier members in its anticone. -/
theorem blues_greedy (hd : Built d) (hk : 0 ≤ k) (hb : ∃ b, d.blocks[h]? = some b) :
    ∃ data d', d.ghostdagData h k = .ok (data, d') ∧ ∃ l : List η, l.Nodup ∧ l.toFinset = data.blues ∧
      ∀ before x after, l = before ++ x :: after → ((d.anticoneIn before.toFinset x).card : ℤ) ≤ k := by
  obtain ⟨b, hb⟩ := hb
  obtain ⟨m, d', hset, heq⟩ := ghostdagData_eq hd.wf hk hb
  obtain ⟨data, hdata, -⟩ := hset h b hb
  refine ⟨data, d', ?_, greedySet_blues hd.wf hk hset hb hdata⟩
  rw [heq, item, hdata]
  rfl

/-- A root with two children, a fruit that merges them, a chain over the second child, and a
fruit that merges both sides. -/
def mergedFork : List (FruitBlock ℕ) :=
  [⟨1, [], 1, 1, by decide, by decide, by decide, by decide⟩,
   ⟨2, [1], 2, 1, by decide, by decide, by decide, by decide⟩,
   ⟨3, [1], 2, 1, by decide, by decide, by decide, by decide⟩,
   ⟨4, [2, 3], 3, 1, by decide, by decide, by decide, by decide⟩,
   ⟨5, [3], 3, 1, by decide, by decide, by decide, by decide⟩,
   ⟨6, [5], 4, 1, by decide, by decide, by decide, by decide⟩,
   ⟨7, [4, 6], 5, 1, by decide, by decide, by decide, by decide⟩]

/-- With `k = 2` all seven are blue, though the first child has three of them in its
anticone. -/
theorem blues_not_cluster :
    Built (dagOf mergedFork) ∧ ∃ data d', (dagOf mergedFork).ghostdagData 7 2 = .ok (data, d') ∧ 2 ∈ data.blues ∧
      ¬((dagOf mergedFork).anticoneIn data.blues 2).card ≤ 2 := by
  have hbuilt := built_dagOf mergedFork
  have hblues : ((dagOf mergedFork).ghostdagData 7 2).map (fun q => ascending q.1.blues) =
      .ok [1, 2, 3, 4, 5, 6, 7] := by decide +kernel
  cases hdata : (dagOf mergedFork).ghostdagData 7 2 with
  | error e =>
    rw [hdata] at hblues
    cases hblues
  | ok q =>
    rw [hdata] at hblues
    have hblue : ∀ x, x ∈ q.1.blues ↔ x ∈ [1, 2, 3, 4, 5, 6, 7] := by
      intro x
      rw [← Except.ok.inj hblues, mem_ascending]
    -- which blocks are ancestors is computed
    have hanc : ∀ {x y : ℕ} {l : List ℕ}, ((dagOf mergedFork).ancestors y).map ascending = .ok l → x ∉ l →
        ¬(dagOf mergedFork).Ancestor x y := by
      intro x y l hl hx
      cases hs : (dagOf mergedFork).ancestors y with
      | error e =>
        rw [hs] at hl
        cases hl
      | ok s =>
        obtain ⟨b, hb, -⟩ := Exn.bind_ok.1 hs
        obtain ⟨s', hs', hmem⟩ := hbuilt.wf.ancestors_ok (Exn.get_ok.1 hb)
        cases hs.symm.trans hs'
        rw [hs] at hl
        rwa [← hmem, ← mem_ascending, Except.ok.inj hl]
    have h₂ : ((dagOf mergedFork).ancestors 2).map ascending = .ok [1] := by decide +kernel
    have h₃ : ((dagOf mergedFork).ancestors 3).map ascending = .ok [1] := by decide +kernel
    have h₅ : ((dagOf mergedFork).ancestors 5).map ascending = .ok [1, 3] := by decide +kernel
    have h₆ : ((dagOf mergedFork).ancestors 6).map ascending = .ok [1, 3, 5] := by decide +kernel
    refine ⟨hbuilt, q.1, q.2, rfl, (hblue 2).2 (by decide), fun hle => ?_⟩
    -- three of the blues are unordered with the second block
    have hsub : ({3, 5, 6} : Finset ℕ) ⊆ (dagOf mergedFork).anticoneIn q.1.blues 2 := by
      intro y hy
      rw [mem_anticoneIn, hblue]
      simp only [Finset.mem_insert, Finset.mem_singleton] at hy
      rcases hy with rfl | rfl | rfl
      · exact ⟨by decide, by decide, hanc h₃ (by decide), hanc h₂ (by decide)⟩
      · exact ⟨by decide, by decide, hanc h₅ (by decide), hanc h₂ (by decide)⟩
      · exact ⟨by decide, by decide, hanc h₆ (by decide), hanc h₂ (by decide)⟩
    have := Finset.card_le_card hsub
    simp at this
    omega

/-- The blues of the last fruit, listed greedily. -/
theorem blues_greedy_merged :
    ∃ data d', (dagOf mergedFork).ghostdagData 7 2 = .ok (data, d') ∧ ∃ l : List ℕ, l.Nodup ∧
      l.toFinset = data.blues ∧ ∀ before x after, l = before ++ x :: after →
        (((dagOf mergedFork).anticoneIn before.toFinset x).card : ℤ) ≤ 2 := by
  have hblock : (dagOf mergedFork).blocks[7]? = mergedFork[6]? := by decide +kernel
  exact blues_greedy (built_dagOf _) (by decide) ⟨_, hblock⟩

end BlockDAG

end TensorPow
