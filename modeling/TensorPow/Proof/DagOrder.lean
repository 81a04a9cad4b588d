import TensorPow.Spec.Ghostdag

/-!
# Well-formed fruit DAGs

Parents are known and strictly older, and the ancestor cache holds exactly the strict
ancestors (`WF`); `add_block` keeps this (`addBlock_wf`). In a well-formed DAG the
depth-first order of `_topological_hashes` is the order by time
(`topologicalHashes_eq`): the recursion never goes more than one level deep.
-/

namespace TensorPow

open Sorted

variable {η : Type} [LinearOrder η]

namespace BlockDAG

/-- `p` is a parent of the known fruit `h`. -/
def Parent (d : BlockDAG η) (p h : η) : Prop := ∃ b, d.blocks[h]? = some b ∧ p ∈ b.parents

/-- `a` is a strict ancestor of `h`. -/
def Ancestor (d : BlockDAG η) (a h : η) : Prop := Relation.TransGen d.Parent a h

/-- `x` is `h` or one of its strict ancestors. -/
def InPast (d : BlockDAG η) (h x : η) : Prop := x = h ∨ d.Ancestor x h

/-- A well-formed DAG. -/
structure WF (d : BlockDAG η) : Prop where
  parent : ∀ {h p : η} {b : FruitBlock η}, d.blocks[h]? = some b → p ∈ b.parents →
    ∃ pb, d.blocks[p]? = some pb ∧ pb.timestampMs < b.timestampMs
  cached : ∀ {h : η} {b : FruitBlock η}, d.blocks[h]? = some b →
    ∃ s, d.ancestorCache[h]? = some s ∧ ∀ x, x ∈ s ↔ d.Ancestor x h
  fresh : ∀ {k : ℤ} {m : Table η (GhostdagData η)}, d.metadataCache[k]? = some m →
    m.size = d.blocks.size → d.computeMetadata k = .ok m

variable {d d₁ d₂ : BlockDAG η} {h x y p : η} {k : ℤ}

theorem ancestor_iff : d.Ancestor x h ↔ ∃ p, d.Parent p h ∧ d.InPast p x := by
  unfold InPast Ancestor
  rw [Relation.transGen_iff]
  constructor
  · rintro (hp | ⟨c, hx, hc⟩)
    · exact ⟨x, hp, .inl rfl⟩
    · exact ⟨c, hc, .inr hx⟩
  · rintro ⟨p, hp, rfl | hx⟩
    · exact .inl hp
    · exact .inr ⟨p, hx, hp⟩

theorem InPast.parent (hp : d.Parent p h) : d.InPast h p := .inr (.single hp)

theorem InPast.trans (hx : d.InPast h x) (hy : d.InPast x y) : d.InPast h y := by
  rcases hy with rfl | hy
  · exact hx
  · rcases hx with rfl | hx
    · exact .inr hy
    · exact .inr (hy.trans hx)

/-! ## Well-formedness -/

namespace WF

/-- Ancestors are known and strictly older. -/
theorem ancestor (hd : d.WF) {b : FruitBlock η} (hb : d.blocks[h]? = some b) (hx : d.Ancestor x h) :
    ∃ xb, d.blocks[x]? = some xb ∧ xb.timestampMs < b.timestampMs := by
  induction hx generalizing b with
  | single hp =>
    obtain ⟨b', hb', hp⟩ := hp
    cases hb.symm.trans hb'
    exact hd.parent hb hp
  | tail _ hp ih =>
    obtain ⟨b', hb', hp⟩ := hp
    cases hb.symm.trans hb'
    obtain ⟨pb, hpb, hlt⟩ := hd.parent hb hp
    obtain ⟨xb, hxb, hlt'⟩ := ih hpb
    exact ⟨xb, hxb, hlt'.trans hlt⟩

theorem inPast (hd : d.WF) {b : FruitBlock η} (hb : d.blocks[h]? = some b) (hx : d.InPast h x) :
    ∃ xb, d.blocks[x]? = some xb := by
  rcases hx with rfl | hx
  · exact ⟨b, hb⟩
  · obtain ⟨xb, hxb, -⟩ := hd.ancestor hb hx
    exact ⟨xb, hxb⟩

theorem irrefl (hd : d.WF) {b : FruitBlock η} (hb : d.blocks[h]? = some b) : ¬d.Ancestor h h := by
  intro hh
  obtain ⟨b', hb', hlt⟩ := hd.ancestor hb hh
  cases hb.symm.trans hb'
  exact lt_irrefl _ hlt

theorem ancestors_ok (hd : d.WF) {b : FruitBlock η} (hb : d.blocks[h]? = some b) :
    ∃ s, d.ancestors h = .ok s ∧ ∀ x, x ∈ s ↔ d.Ancestor x h := by
  obtain ⟨s, hs, hx⟩ := hd.cached hb
  refine ⟨s, ?_, hx⟩
  simp [ancestors, getBlock, hb, hs, item]

end WF

theorem wf_empty : (BlockDAG.empty : BlockDAG η).WF where
  parent hb := by simp [BlockDAG.empty] at hb
  cached hb := by simp [BlockDAG.empty] at hb
  fresh hm := by simp [BlockDAG.empty] at hm

/-- What a successful `add_block` checked and did. -/
theorem addBlock_ok {d' : BlockDAG η} {block : FruitBlock η} (h : d.addBlock block = .ok d') :
    d.blocks[block.fruitHash]? = none ∧
    (∀ p ∈ block.parents, ∃ pb, d.blocks[p]? = some pb ∧ pb.timestampMs < block.timestampMs) ∧
    ∃ s, (∀ x, x ∈ s ↔ ∃ p ∈ block.parents, x = p ∨ ∃ sp, d.ancestorCache[p]? = some sp ∧ x ∈ sp) ∧
      d' = ⟨d.blocks.insert block.fruitHash block, d.ancestorCache.insert block.fruitHash s, ∅⟩ := by
  unfold addBlock at h
  obtain ⟨_, hnew, h⟩ := Exn.bind_ok.1 h
  obtain ⟨_, hpar, h⟩ := Exn.bind_ok.1 h
  obtain ⟨s, hs, h⟩ := Exn.bind_ok.1 h
  refine ⟨Exn.ensure_ok.1 hnew, ?_, s, ?_, (Exn.pure_ok.1 h).symm⟩
  · -- the loop over the parents looks each one up
    refine Exn.foldlM_inv (fun done _ => ∀ p ∈ done,
      ∃ pb, d.blocks[p]? = some pb ∧ pb.timestampMs < block.timestampMs) ?_ (by simp) hpar
    intro done a todo _ _ _ ih hstep p hp
    obtain ⟨pb, hpb, hlt⟩ := Exn.bind_ok.1 hstep
    rcases List.mem_append.1 hp with hp | hp
    · exact ih p hp
    · rw [List.mem_singleton.1 hp]
      exact ⟨pb, Exn.get_ok.1 hpb, Exn.ensure_ok.1 hlt⟩
  · -- the set holds the parents so far and the past of each
    refine Exn.foldlM_inv (fun done (s : Finset η) => ∀ x, x ∈ s ↔
      ∃ p ∈ done, x = p ∨ ∃ sp, d.ancestorCache[p]? = some sp ∧ x ∈ sp) ?_ (by simp) hs
    intro done a todo t t' _ ih hstep x
    obtain ⟨sp, hsp, ht'⟩ := Exn.bind_ok.1 hstep
    rw [← Exn.pure_ok.1 ht', Finset.mem_union, Finset.mem_insert, ih]
    rw [item_ok] at hsp
    simp only [List.mem_append, List.mem_singleton]
    constructor
    · rintro ((rfl | ⟨p, hp, hx⟩) | hx)
      · exact ⟨x, .inr rfl, .inl rfl⟩
      · exact ⟨p, .inl hp, hx⟩
      · exact ⟨a, .inr rfl, .inr ⟨sp, hsp, hx⟩⟩
    · rintro ⟨p, hp | rfl, hx⟩
      · exact .inl (.inr ⟨p, hp, hx⟩)
      · rcases hx with rfl | ⟨sp', hsp', hx⟩
        · exact .inl (.inl rfl)
        · cases hsp.symm.trans hsp'
          exact .inr hx

/-- A new fruit whose parents are known and older can be added. -/
theorem addBlock_returns (hd : d.WF) {block : FruitBlock η} (hnew : d.blocks[block.fruitHash]? = none)
    (hpar : ∀ p ∈ block.parents, ∃ pb, d.blocks[p]? = some pb ∧ pb.timestampMs < block.timestampMs) :
    ∃ d', d.addBlock block = .ok d' := by
  have hcheck : d.checkParents block = .ok () := by
    refine Exn.foldlM_eq (fun _ => ()) fun done p todo hl => ?_
    obtain ⟨pb, hpb, hlt⟩ := hpar p (by simp [hl])
    rw [hpb, Exn.get_some, Exn.ok_bind, Exn.ensure_of _ hlt]
  have hanc : Exn.Post (block.parents.foldlM (fun (acc : Finset η) parent => do
      let cached ← item d.ancestorCache parent
      return insert parent acc ∪ cached) ∅) (fun _ => True) fun _ => False := by
    refine Exn.Post.foldlM (fun _ _ => True) trivial fun done p todo acc hl _ => ?_
    obtain ⟨pb, hpb, -⟩ := hpar p (by simp [hl])
    obtain ⟨s, hs, -⟩ := hd.cached hpb
    exact (item_post hs).bind fun _ _ _ => Exn.Post.pure trivial
  obtain ⟨s, hs, -⟩ := hanc.returns
  unfold addBlock
  rw [Exn.ensure_of _ hnew, Exn.ok_bind, hcheck, Exn.ok_bind, hs, Exn.ok_bind]
  exact ⟨_, rfl⟩

/-- In a DAG that extends a well-formed one, the ancestors of an old fruit are the old ones. -/
theorem ancestor_ext (hd : d.WF) (hext : Table.Ext d.blocks d₂.blocks) {b : FruitBlock η}
    (hb : d.blocks[h]? = some b) : d₂.Ancestor x h ↔ d.Ancestor x h := by
  constructor
  · intro hx
    induction hx generalizing b with
    | single hp =>
      obtain ⟨b', hb', hp⟩ := hp
      cases (hext _ _ hb).symm.trans hb'
      exact .single ⟨b, hb, hp⟩
    | tail _ hp ih =>
      obtain ⟨b', hb', hp⟩ := hp
      cases (hext _ _ hb).symm.trans hb'
      obtain ⟨pb, hpb, -⟩ := hd.parent hb hp
      exact (ih hpb).tail ⟨b, hb, hp⟩
  · intro hx
    exact hx.lift id fun p c ⟨b, hb, hp⟩ => ⟨b, hext _ _ hb, hp⟩

theorem addBlock_wf {d' : BlockDAG η} {block : FruitBlock η} (hd : d.WF) (h : d.addBlock block = .ok d') :
    d'.WF := by
  obtain ⟨hnew, hpar, s, hs, rfl⟩ := addBlock_ok h
  have hext : Table.Ext d.blocks (d.blocks.insert block.fruitHash block) := Table.Ext.insert _ _ hnew
  refine ⟨?_, ?_, ?_⟩
  · intro h p b hb hp
    rw [Table.get_insert] at hb
    split at hb
    · cases hb
      obtain ⟨pb, hpb, hlt⟩ := hpar p hp
      exact ⟨pb, hext _ _ hpb, hlt⟩
    · obtain ⟨pb, hpb, hlt⟩ := hd.parent hb hp
      exact ⟨pb, hext _ _ hpb, hlt⟩
  · intro h b hb
    simp only [Table.get_insert] at hb ⊢
    split at hb
    · rename_i heq
      cases hb
      subst heq
      refine ⟨s, if_pos rfl, fun x => ?_⟩
      rw [hs, ancestor_iff]
      constructor
      · rintro ⟨p, hp, hx⟩
        refine ⟨p, ⟨block, by simp, hp⟩, ?_⟩
        -- an ancestor is a parent, or stands in the past that is kept for one
        rcases hx with rfl | ⟨sp, hsp, hx⟩
        · exact .inl rfl
        · obtain ⟨pb, hpb, -⟩ := hpar p hp
          obtain ⟨sp', hsp', hx'⟩ := hd.cached hpb
          cases hsp.symm.trans hsp'
          exact .inr ((ancestor_ext hd hext hpb).2 ((hx' x).1 hx))
      · rintro ⟨p, ⟨b, hb, hp⟩, hx⟩
        simp only [Table.get_insert, if_true] at hb
        cases hb
        refine ⟨p, hp, ?_⟩
        obtain ⟨pb, hpb, -⟩ := hpar p hp
        obtain ⟨sp, hsp, hx'⟩ := hd.cached hpb
        rcases hx with rfl | hx
        · exact .inl rfl
        · exact .inr ⟨sp, hsp, (hx' x).2 ((ancestor_ext hd hext hpb).1 hx)⟩
    · rename_i hne
      obtain ⟨sh, hsh, hx⟩ := hd.cached hb
      exact ⟨sh, by rw [if_neg hne, hsh], fun x => (hx x).trans (ancestor_ext hd hext hb).symm⟩
  · intro k m hm
    simp at hm

/-- What a successful metadata query returned and did. -/
theorem ghostdagMetadata_ok {d' : BlockDAG η} {m : Table η (GhostdagData η)} (hd : d.WF)
    (h : d.ghostdagMetadata k = .ok (m, d')) :
    0 ≤ k ∧ d.computeMetadata k = .ok m ∧ d'.blocks = d.blocks ∧ d'.ancestorCache = d.ancestorCache ∧
      (d'.metadataCache = d.metadataCache ∨ d'.metadataCache = d.metadataCache.insert k m) := by
  unfold ghostdagMetadata at h
  obtain ⟨_, hk, h⟩ := Exn.bind_ok.1 h
  have hk : 0 ≤ k := Exn.ensure_ok.1 hk
  refine ⟨hk, ?_⟩
  have compute : (do
      let metadata ← d.computeMetadata k
      return (metadata, { d with metadataCache := d.metadataCache.insert k metadata })) =
        Except.ok (m, d') → d.computeMetadata k = .ok m ∧
          d' = { d with metadataCache := d.metadataCache.insert k m } := by
    intro h
    obtain ⟨m', hm', h⟩ := Exn.bind_ok.1 h
    cases Exn.pure_ok.1 h
    exact ⟨hm', rfl⟩
  split at h
  · rename_i cached hc
    split at h
    · rename_i hsize
      cases h
      exact ⟨hd.fresh hc hsize, rfl, rfl, .inl rfl⟩
    · obtain ⟨hm, rfl⟩ := compute h
      exact ⟨hm, rfl, rfl, .inr rfl⟩
  · obtain ⟨hm, rfl⟩ := compute h
    exact ⟨hm, rfl, rfl, .inr rfl⟩

/-! ## The topological order -/

theorem mem_hashesByTime : h ∈ d.hashesByTime ↔ ∃ b, d.blocks[h]? = some b := by
  simp only [hashesByTime, List.mem_map, mem_sortBy, Prod.exists, Table.mem_toList]
  constructor
  · rintro ⟨_, b, hb, rfl⟩
    exact ⟨b, hb⟩
  · rintro ⟨b, hb⟩
    exact ⟨h, b, hb, rfl⟩

theorem nodup_hashesByTime : d.hashesByTime.Nodup := by
  have hp := (perm_sortBy timeKey d.blocks.toList).map Prod.fst
  rw [Std.ExtTreeMap.map_fst_toList_eq_keys] at hp
  exact hp.nodup_iff.2 d.blocks.nodup_keys

/-- In the order by time, ancestors come first. -/
theorem ancestor_before (hd : d.WF) {done todo : List η} (hl : d.hashesByTime = done ++ h :: todo)
    (hx : d.Ancestor x h) : x ∈ done := by
  have hsorted := pairwise_sortBy timeKey d.blocks.toList
  obtain ⟨s₁, s₂, hs, rfl, h₂⟩ := List.map_eq_append_iff.1 hl
  obtain ⟨⟨h, b⟩, s₃, rfl, rfl, rfl⟩ := List.map_eq_cons_iff.1 h₂
  rw [hs] at hsorted
  have hmem : ∀ q ∈ s₁ ++ (h, b) :: s₃, d.blocks[q.1]? = some q.2 := fun q hq =>
    Table.mem_toList.1 (mem_sortBy.1 (hs ▸ hq))
  have hb := hmem (h, b) (by simp)
  obtain ⟨xb, hxb, hlt⟩ := hd.ancestor hb hx
  have hxm : (x, xb) ∈ s₁ ++ (h, b) :: s₃ := hs ▸ mem_sortBy.2 (Table.mem_toList.2 hxb)
  rcases List.mem_append.1 hxm with hx₁ | hx₂
  · exact List.mem_map_of_mem hx₁
  · exfalso
    rcases List.mem_cons.1 hx₂ with heq | hx₂
    · cases heq
      exact lt_irrefl _ hlt
    · have hle := (List.pairwise_cons.1 (List.pairwise_append.1 hsorted).2.1).1 _ hx₂
      rcases Prod.Lex.le_iff.1 hle with hlt' | ⟨heq, -⟩
      · exact lt_asymm hlt hlt'
      · exact hlt.ne heq.symm

/-- Visiting a visited fruit does nothing. -/
theorem visit_visited {n : ℕ} {s : Visit η} (hs : h ∈ s.visited) : d.visit (n + 1) s h = .ok s := by
  simp [visit, hs]

/-- The depth-first order is the order by time. -/
theorem topologicalHashes_eq (hd : d.WF) : d.topologicalHashes = .ok d.hashesByTime := by
  have hloop : d.hashesByTime.foldlM (d.visit (d.blocks.size + 1)) ⟨∅, ∅, []⟩ =
      .ok ⟨d.hashesByTime.toFinset, ∅, d.hashesByTime⟩ := by
    refine Exn.foldlM_eq (fun done => (⟨done.toFinset, ∅, done⟩ : Visit η)) ?_
    intro done h todo hl
    obtain ⟨b, hb⟩ := mem_hashesByTime.1 (hl ▸ (by simp) : h ∈ d.hashesByTime)
    have hfresh : h ∉ done := by
      have := nodup_hashesByTime (d := d)
      rw [hl, List.nodup_append] at this
      exact fun hm => this.2.2 h hm h List.mem_cons_self rfl
    obtain ⟨n, hn⟩ : ∃ n, d.blocks.size = n + 1 := by
      refine Nat.exists_eq_succ_of_ne_zero fun h0 => ?_
      rw [Std.ExtTreeMap.eq_empty_iff_size_eq_zero.2 h0] at hb
      simp at hb
    -- every parent was visited before, so the recursion goes one level deep
    have hparents : b.parents.foldlM (d.visit d.blocks.size)
        (⟨done.toFinset, insert h ∅, done⟩ : Visit η) = .ok ⟨done.toFinset, insert h ∅, done⟩ := by
      refine Exn.foldlM_eq (fun _ => (⟨done.toFinset, insert h ∅, done⟩ : Visit η)) ?_
      intro _ p _ hp
      rw [hn]
      apply visit_visited
      have : d.Parent p h := ⟨b, hb, hp ▸ by simp⟩
      exact List.mem_toFinset.2 (ancestor_before hd hl (.single this))
    simp only [visit, item, hb, Exn.get_some, List.mem_toFinset, hfresh, if_false,
      Finset.notMem_empty, Exn.ok_bind, hparents]
    congr 2
    · ext; simp
    · simp
  rw [topologicalHashes, hloop]
  rfl

end BlockDAG

end TensorPow
