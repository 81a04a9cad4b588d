import TensorPow.Proof.DagOrder

/-!
# GHOSTDAG metadata depends only on the past

Once its ancestors have metadata, the metadata of a fruit is computed without error
and partitions its past (`dataOf_post`), and the computation reads nothing but that
past (`dataOf_congr`). Hence the finished table is a fixed point (`Settled`), and two
such tables agree wherever the pasts do (`Settled.agree`).
-/

namespace TensorPow

open Sorted

variable {η : Type} [LinearOrder η]

namespace BlockDAG

variable {d d₁ d₂ : BlockDAG η} {h x y p : η} {k : ℤ} {m m₁ m₂ : Table η (GhostdagData η)}

/-! ## The metadata of one fruit -/

/-- Metadata of `h` that partitions its past and itself. -/
structure Good (d : BlockDAG η) (h : η) (data : GhostdagData η) : Prop where
  mem : ∀ x, x ∈ data.blues ∪ data.reds ↔ d.InPast h x
  disjoint : Disjoint data.blues data.reds
  self : h ∈ data.blues
  score : data.blueScore = data.blues.card

theorem Good.blues_inPast {data : GhostdagData η} (hg : d.Good h data) (hx : x ∈ data.blues) :
    d.InPast h x := (hg.mem x).1 (Finset.mem_union_left _ hx)

/-- Every ancestor of `h` has good metadata in the table. -/
def Ready (d : BlockDAG η) (m : Table η (GhostdagData η)) (h : η) : Prop :=
  ∀ x, d.Ancestor x h → ∃ data, m[x]? = some data ∧ d.Good x data

/-- What holds of the metadata computed for `h` from the table `m`. -/
def Computed (d : BlockDAG η) (m : Table η (GhostdagData η)) (h : η) (data : GhostdagData η) : Prop :=
  d.Good h data ∧ ∀ p, data.selectedParent = some p →
    d.Parent p h ∧ ∃ dp, m[p]? = some dp ∧ dp.blues ⊆ data.blues

theorem isRelated_post (hd : d.WF) (hx : ∃ b, d.blocks[x]? = some b) (hy : ∃ b, d.blocks[y]? = some b) :
    Exn.Post (d.isRelated x y) (fun _ => True) fun _ => False := by
  obtain ⟨_, hx⟩ := hx
  obtain ⟨_, hy⟩ := hy
  obtain ⟨sx, hsx, -⟩ := hd.ancestors_ok hx
  obtain ⟨sy, hsy, -⟩ := hd.ancestors_ok hy
  unfold isRelated
  rw [hsx, hsy]
  split
  · trivial
  · simp only [Exn.ok_bind]
    split <;> trivial

theorem anticoneSize_post (hd : d.WF) {s : Finset η} (hx : ∃ b, d.blocks[x]? = some b)
    (hs : ∀ y ∈ s, ∃ b, d.blocks[y]? = some b) :
    Exn.Post (d.anticoneSize x s) (fun _ => True) fun _ => False := by
  refine Exn.Post.foldlM (fun _ _ => True) trivial ?_
  intro done y todo n hl _
  have hy : y ∈ ascending s := hl ▸ by simp
  exact (isRelated_post hd hx (hs y (mem_ascending.1 hy))).bind fun _ _ _ => trivial

theorem tryBlue_post (hd : d.WF) {s : Finset η} (hx : ∃ b, d.blocks[x]? = some b)
    (hs : ∀ y ∈ s, ∃ b, d.blocks[y]? = some b) :
    Exn.Post (d.tryBlue k s x) (fun t => t = s ∨ t = insert x s) fun _ => False := by
  refine (anticoneSize_post hd hx hs).bind fun n _ _ => Exn.Post.pure ?_
  split
  · exact .inr rfl
  · exact .inl rfl

theorem pastOfParents_post (hd : d.WF) {l : List η} (hl : ∀ p ∈ l, ∃ b, d.blocks[p]? = some b) :
    Exn.Post (d.pastOfParents l) (fun s => ∀ x, x ∈ s ↔ ∃ p ∈ l, d.InPast p x) fun _ => False := by
  refine Exn.Post.foldlM (fun done (s : Finset η) => ∀ x, x ∈ s ↔ ∃ p ∈ done, d.InPast p x) (by simp) ?_
  intro done p todo s hdone ih
  obtain ⟨b, hb⟩ := hl p (hdone ▸ by simp)
  obtain ⟨sp, hsp, hmem⟩ := hd.ancestors_ok hb
  simp only [hsp, Exn.ok_bind]
  refine Exn.Post.pure fun x => ?_
  rw [Finset.mem_union, Finset.mem_insert, ih, hmem]
  simp only [List.mem_append, List.mem_singleton]
  constructor
  · rintro ((rfl | ⟨q, hq, hx⟩) | hx)
    · exact ⟨x, .inr rfl, .inl rfl⟩
    · exact ⟨q, .inl hq, hx⟩
    · exact ⟨p, .inr rfl, .inr hx⟩
  · rintro ⟨q, hq | rfl, hx⟩
    · exact .inl (.inr ⟨q, hq, hx⟩)
    · rcases hx with rfl | hx
      · exact .inl (.inl rfl)
      · exact .inr hx

theorem selectParent_post {l : List η} (hne : l ≠ []) (hl : ∀ p ∈ l, ∃ data, m[p]? = some data) :
    Exn.Post (selectParent l m) (fun p => p ∈ l) fun _ => False := by
  have hkeyed : Exn.Post (l.mapM fun p => do
      let data ← item m p
      return ((-(data.accumulatedBlueWork : ℤ), p) : ℤ × η)) (fun qs => ∀ q ∈ qs, q.2 ∈ l) fun _ => False := by
    refine Exn.Post.mapM fun p hp => ?_
    obtain ⟨data, hdata⟩ := hl p hp
    exact (item_post hdata).bind fun _ _ _ => Exn.Post.pure hp
  refine hkeyed.bind fun qs hqs hmem => ?_
  split
  · rename_i hnil
    obtain ⟨p, hp⟩ := List.exists_mem_of_ne_nil l hne
    obtain ⟨q, hq, -⟩ := (Exn.mapM_ok_mem hqs).1 p hp
    rw [← @mem_sortBy _ _ _ (fun q => (toLex q : ℤ ×ₗ η)), hnil] at hq
    cases hq
  · rename_i q qs' hcons
    refine Exn.Post.pure (hmem q ?_)
    rw [← @mem_sortBy _ _ _ (fun q => (toLex q : ℤ ×ₗ η)), hcons]
    exact List.mem_cons_self

/-- Sorting by score lists the set, each fruit once. -/
theorem sortedByScore_perm {s : Finset η} {l : List η} (h : d.sortedByScore m s = .ok l) :
    l.Perm (ascending s) := by
  obtain ⟨qs, hqs, h⟩ := Exn.bind_ok.1 h
  have hmap : qs.map (·.2.2) = ascending s := by
    refine Exn.map_mapM_ok (fun a q hq => ?_) hqs
    obtain ⟨_, -, hq⟩ := Exn.bind_ok.1 hq
    obtain ⟨_, -, hq⟩ := Exn.bind_ok.1 hq
    rw [← Exn.pure_ok.1 hq]
  rw [← Exn.pure_ok.1 h, ← hmap]
  exact (perm_sortBy _ _).map _

/-- The order of a set reads the metadata and the blocks of its fruits only. -/
theorem sortedByScore_congr {s : Finset η} {m₁ m₂ : Table η (GhostdagData η)} {d₁ d₂ : BlockDAG η}
    (hm : ∀ x ∈ s, m₁[x]? = m₂[x]?) (hb : ∀ x ∈ s, d₁.blocks[x]? = d₂.blocks[x]?) :
    d₁.sortedByScore m₁ s = d₂.sortedByScore m₂ s := by
  unfold sortedByScore
  congr 1
  refine Exn.mapM_congr fun x hx => ?_
  rw [mem_ascending] at hx
  unfold item
  rw [hm x hx, hb x hx]

theorem sortedByScore_post {s : Finset η} (hm : ∀ x ∈ s, ∃ data, m[x]? = some data)
    (hb : ∀ x ∈ s, ∃ b, d.blocks[x]? = some b) :
    Exn.Post (d.sortedByScore m s) (fun l => ∀ x, x ∈ l ↔ x ∈ s) fun _ => False := by
  have hkeyed : Exn.Post ((ascending s).mapM fun h => do
      let data ← item m h
      let block ← item d.blocks h
      return ((data.blueScore, block.timestampMs, h) : ℕ × ℕ × η)) (fun _ => True) fun _ => False := by
    refine (Exn.Post.mapM (Q := fun _ => True) fun h hh => ?_).mono (fun _ _ => trivial) fun _ hf => hf
    obtain ⟨data, hdata⟩ := hm h (mem_ascending.1 hh)
    obtain ⟨b, hb⟩ := hb h (mem_ascending.1 hh)
    exact (item_post hdata).bind fun _ _ _ => (item_post hb).bind fun _ _ _ => trivial
  obtain ⟨qs, hqs, -⟩ := hkeyed.returns
  obtain ⟨l, hl⟩ : ∃ l, d.sortedByScore m s = .ok l := ⟨_, Exn.bind_ok.2 ⟨qs, hqs, rfl⟩⟩
  rw [hl]
  refine Exn.Post.ok fun x => ?_
  rw [(sortedByScore_perm hl).mem_iff, mem_ascending]

/-- Once its ancestors have metadata, so has a fruit. -/
theorem dataOf_post (hd : d.WF) {b : FruitBlock η} (hb : d.blocks[h]? = some b) (hm : d.Ready m h) :
    Exn.Post (d.dataOf k m h) (d.Computed m h) fun _ => False := by
  have hknown : ∀ {x}, d.InPast h x → ∃ b, d.blocks[x]? = some b := fun hx => hd.inPast hb hx
  have hparent : ∀ p ∈ b.parents, d.Parent p h := fun p hp => ⟨b, hb, hp⟩
  have hpast : ∀ x, d.InPast h x ↔ x = h ∨ ∃ p ∈ b.parents, d.InPast p x := by
    intro x
    rw [InPast, ancestor_iff]
    refine or_congr_right ⟨?_, ?_⟩
    · rintro ⟨p, ⟨b', hb', hp⟩, hx⟩
      cases hb.symm.trans hb'
      exact ⟨p, hp, hx⟩
    · rintro ⟨p, hp, hx⟩
      exact ⟨p, hparent p hp, hx⟩
  refine (item_post hb).bind fun b' _ hb' => ?_
  subst hb'
  split
  · rename_i hroot
    refine Exn.Post.pure ⟨⟨fun x => ?_, by simp, by simp, by simp⟩, fun p hp => by simp at hp⟩
    rw [hpast, hroot]
    simp
  rename_i hne
  have hready : ∀ p ∈ b'.parents, ∃ data, m[p]? = some data ∧ d.Good p data := fun p hp =>
    hm p (.single (hparent p hp))
  refine (selectParent_post hne fun p hp => (hready p hp).imp fun _ => And.left).bind fun sp _ hsp => ?_
  obtain ⟨spData, hspData, hspGood⟩ := hready sp hsp
  refine (item_post hspData).bind fun spData' _ heq => ?_
  subst heq
  obtain ⟨spb, hspb⟩ := hknown (InPast.parent (hparent sp hsp))
  obtain ⟨spPast, hspPast, hspMem⟩ := hd.ancestors_ok hspb
  simp only [hspPast, Exn.ok_bind]
  have hparents : ∀ p ∈ b'.parents, ∃ b, d.blocks[p]? = some b := fun p hp =>
    hknown (InPast.parent (hparent p hp))
  refine (pastOfParents_post hd fun p hp => hparents p (List.mem_of_mem_filter hp)).bind
    fun mergePast _ hmerge => ?_
  have hcand : ∀ x ∈ mergePast \ insert sp spPast, ∃ p ∈ b'.parents, d.InPast p x := by
    intro x hx
    obtain ⟨p, hp, hpx⟩ := (hmerge x).1 (Finset.mem_sdiff.1 hx).1
    exact ⟨p, List.mem_of_mem_filter hp, hpx⟩
  have hanc : ∀ {x p}, p ∈ b'.parents → d.InPast p x → d.Ancestor x h := fun hp hx =>
    ancestor_iff.2 ⟨_, hparent _ hp, hx⟩
  -- the candidates lie in the past, where there is data for the sort
  refine (sortedByScore_post (m := m) ?_ ?_).bind fun candidates _ hcands => ?_
  · intro x hx
    obtain ⟨p, hp, hpx⟩ := hcand x hx
    exact (hm x (hanc hp hpx)).imp fun _ => And.left
  · intro x hx
    obtain ⟨p, hp, hpx⟩ := hcand x hx
    exact hknown (.inr (hanc hp hpx))
  -- the running blues keep the selected parent's and stay inside the past
  have hloop : Exn.Post (candidates.foldlM (d.tryBlue k) spData'.blues)
      (fun s => spData'.blues ⊆ s ∧ ∀ x ∈ s, d.Ancestor x h) fun _ => False := by
    refine Exn.Post.foldlM (fun _ (s : Finset η) => spData'.blues ⊆ s ∧ ∀ x ∈ s, d.Ancestor x h) ?_ ?_
    · exact ⟨subset_rfl, fun x hx => hanc hsp (hspGood.blues_inPast hx)⟩
    · rintro done c todo s hc ⟨hsub, hs⟩
      obtain ⟨p, hp, hpc⟩ := hcand c ((hcands c).1 (hc ▸ by simp))
      refine (tryBlue_post hd (hknown (.inr (hanc hp hpc))) fun y hy => hknown (.inr (hs y hy))).mono ?_
        fun _ hf => hf
      rintro t (rfl | rfl)
      · exact ⟨hsub, hs⟩
      · refine ⟨hsub.trans (Finset.subset_insert _ _), fun x hx => ?_⟩
        rcases Finset.mem_insert.1 hx with rfl | hx
        · exact hanc hp hpc
        · exact hs x hx
  refine hloop.bind fun blues _ ⟨hsub, hblues⟩ => ?_
  refine (pastOfParents_post hd hparents).bind fun past _ hmem => ?_
  have hworks : Exn.Post ((ascending (insert h blues)).mapM fun b => do
      let block ← item d.blocks b
      return block.work) (fun _ => True) fun _ => False := by
    refine (Exn.Post.mapM (Q := fun _ => True) fun x hx => ?_).mono (fun _ _ => trivial) fun _ hf => hf
    have hx : d.InPast h x := by
      rcases Finset.mem_insert.1 (mem_ascending.1 hx) with rfl | hx
      · exact .inl rfl
      · exact .inr (hblues x hx)
    obtain ⟨xb, hxb⟩ := hknown hx
    exact (item_post hxb).bind fun _ _ _ => trivial
  refine hworks.bind fun works _ _ => Exn.Post.pure ⟨⟨fun x => ?_, ?_, ?_, rfl⟩, ?_⟩
  · rw [hpast, Finset.union_sdiff_self_eq_union, Finset.mem_union, Finset.mem_insert, hmem]
    constructor
    · rintro ((rfl | hx) | hx)
      · exact .inl rfl
      · exact (hpast x).1 (.inr (hblues x hx))
      · exact .inr hx
    · rintro (rfl | hx)
      · exact .inl (.inl rfl)
      · exact .inr hx
  · exact Finset.disjoint_sdiff
  · exact Finset.mem_insert_self _ _
  · intro p hp
    cases hp
    exact ⟨hparent sp hsp, spData', hspData, hsub.trans (Finset.subset_insert _ _)⟩

/-! ## Two DAGs with one past -/

/-- `h` and all its ancestors have the same records in both DAGs. -/
def SamePast (d₁ d₂ : BlockDAG η) (h : η) : Prop := ∀ x, d₁.InPast h x → d₁.blocks[x]? = d₂.blocks[x]?

namespace SamePast

theorem mono (hs : SamePast d₁ d₂ h) (hx : d₁.InPast h x) : SamePast d₁ d₂ x :=
  fun y hy => hs y (hx.trans hy)

theorem ancestor_iff (hs : SamePast d₁ d₂ h) : d₁.Ancestor x h ↔ d₂.Ancestor x h := by
  constructor
  · intro hx
    induction hx with
    | single hp =>
      obtain ⟨b, hb, hp⟩ := hp
      exact .single ⟨b, hs _ (.inl rfl) ▸ hb, hp⟩
    | tail _ hp ih =>
      refine .tail (ih (hs.mono (InPast.parent hp))) ?_
      obtain ⟨b, hb, hp⟩ := hp
      exact ⟨b, hs _ (.inl rfl) ▸ hb, hp⟩
  · intro hx
    induction hx with
    | single hp =>
      obtain ⟨b, hb, hp⟩ := hp
      exact .single ⟨b, (hs _ (.inl rfl)).symm ▸ hb, hp⟩
    | tail _ hp ih =>
      obtain ⟨b, hb, hp⟩ := hp
      have hp₁ : d₁.Parent _ _ := ⟨b, (hs _ (.inl rfl)).symm ▸ hb, hp⟩
      exact .tail (ih (hs.mono (InPast.parent hp₁))) hp₁

theorem ancestors_eq (hd₁ : d₁.WF) (hd₂ : d₂.WF) (hs : SamePast d₁ d₂ h) {b : FruitBlock η}
    (hb : d₁.blocks[h]? = some b) : d₁.ancestors h = d₂.ancestors h := by
  obtain ⟨s₁, hs₁, hm₁⟩ := hd₁.ancestors_ok hb
  obtain ⟨s₂, hs₂, hm₂⟩ := hd₂.ancestors_ok (hs h (.inl rfl) ▸ hb)
  rw [hs₁, hs₂]
  congr 1
  ext x
  rw [hm₁, hm₂, hs.ancestor_iff]

end SamePast

section Congr

variable (hd₁ : d₁.WF) (hd₂ : d₂.WF) {b : FruitBlock η} (hb : d₁.blocks[h]? = some b)
  (hs : SamePast d₁ d₂ h)
include hd₁ hd₂ hb hs

theorem ancestors_congr (hx : d₁.InPast h x) : d₁.ancestors x = d₂.ancestors x := by
  obtain ⟨xb, hxb⟩ := hd₁.inPast hb hx
  exact (hs.mono hx).ancestors_eq hd₁ hd₂ hxb

theorem isRelated_congr (hx : d₁.InPast h x) (hy : d₁.InPast h y) : d₁.isRelated x y = d₂.isRelated x y := by
  unfold isRelated
  rw [ancestors_congr hd₁ hd₂ hb hs hx, ancestors_congr hd₁ hd₂ hb hs hy]

theorem tryBlue_congr {s : Finset η} (hx : d₁.InPast h x) (hsub : ∀ y ∈ s, d₁.InPast h y) :
    d₁.tryBlue k s x = d₂.tryBlue k s x := by
  have hsize : d₁.anticoneSize x s = d₂.anticoneSize x s := by
    refine Exn.foldlM_congr (fun y hy n => ?_) _
    rw [isRelated_congr hd₁ hd₂ hb hs hx (hsub y (mem_ascending.1 hy))]
  rw [tryBlue, tryBlue, hsize]

theorem pastOfParents_congr {l : List η} (hl : ∀ p ∈ l, d₁.InPast h p) :
    d₁.pastOfParents l = d₂.pastOfParents l := by
  refine Exn.foldlM_congr (fun p hp s => ?_) _
  rw [ancestors_congr hd₁ hd₂ hb hs (hl p hp)]

/-- **Computing the metadata of a fruit reads nothing but its past.** -/
theorem dataOf_congr (hm₁ : d₁.Ready m₁ h) (hm : ∀ x, d₁.Ancestor x h → m₁[x]? = m₂[x]?) :
    d₁.dataOf k m₁ h = d₂.dataOf k m₂ h := by
  -- records and data are read only in the past, where both DAGs agree
  have hblock : ∀ {x}, d₁.InPast h x → item d₁.blocks x = item d₂.blocks x := by
    intro x hx
    rw [item, item, hs x hx]
  have hmeta : ∀ {x}, d₁.Ancestor x h → item m₁ x = item m₂ x := by
    intro x hx
    rw [item, item, hm x hx]
  refine Exn.bind_congr (hblock (.inl rfl)) fun b' hb' => ?_
  rw [item_ok, hb] at hb'
  cases hb'
  have hparent : ∀ p ∈ b.parents, d₁.Parent p h := fun p hp => ⟨b, hb, hp⟩
  have hanc : ∀ {x p}, p ∈ b.parents → d₁.InPast p x → d₁.Ancestor x h := fun hp hx =>
    ancestor_iff.2 ⟨_, hparent _ hp, hx⟩
  split
  · rfl
  rename_i hne
  have hselect : selectParent b.parents m₁ = selectParent b.parents m₂ := by
    unfold selectParent
    rw [Exn.mapM_congr fun p hp => by rw [hmeta (.single (hparent p hp))]]
  refine Exn.bind_congr hselect fun sp hsp => ?_
  have hsp : sp ∈ b.parents := (selectParent_post hne fun p hp =>
    (hm₁ p (.single (hparent p hp))).imp fun _ => And.left).of_ok hsp
  refine Exn.bind_congr (hmeta (.single (hparent sp hsp))) fun spData hspData => ?_
  obtain ⟨spData', hspData', hspGood⟩ := hm₁ sp (.single (hparent sp hsp))
  rw [item_ok, hspData'] at hspData
  cases hspData
  have hparents : ∀ p ∈ b.parents, d₁.InPast h p := fun p hp => .parent (hparent p hp)
  refine Exn.bind_congr (ancestors_congr hd₁ hd₂ hb hs (hparents sp hsp)) fun spPast _ => ?_
  refine Exn.bind_congr (pastOfParents_congr hd₁ hd₂ hb hs fun p hp =>
    hparents p (List.mem_of_mem_filter hp)) fun mergePast hmerge => ?_
  have hcand : ∀ x ∈ mergePast \ insert sp spPast, d₁.Ancestor x h := by
    intro x hx
    have hmem := (pastOfParents_post hd₁ fun p hp =>
      hd₁.inPast hb (hparents p (List.mem_of_mem_filter hp))).of_ok hmerge
    obtain ⟨p, hp, hpx⟩ := (hmem x).1 (Finset.mem_sdiff.1 hx).1
    exact hanc (List.mem_of_mem_filter hp) hpx
  have hsorted : d₁.sortedByScore m₁ (mergePast \ insert sp spPast) =
      d₂.sortedByScore m₂ (mergePast \ insert sp spPast) := by
    unfold sortedByScore
    rw [Exn.mapM_congr fun x hx => by
      rw [hmeta (hcand x (mem_ascending.1 hx)), hblock (.inr (hcand x (mem_ascending.1 hx)))]]
  refine Exn.bind_congr hsorted fun candidates hcands => ?_
  have hcands : ∀ c ∈ candidates, d₁.Ancestor c h := by
    intro c hc
    have hmem := (sortedByScore_post (fun x hx => (hm₁ x (hcand x hx)).imp fun _ => And.left)
      fun x hx => hd₁.inPast hb (.inr (hcand x hx))).of_ok hcands
    exact hcand c ((hmem c).1 hc)
  -- along the candidates both sides add the same blues, and none from outside the past
  have hstep : ∀ c ∈ candidates, ∀ s : Finset η, (∀ y ∈ s, d₁.Ancestor y h) →
      d₁.tryBlue k s c = d₂.tryBlue k s c ∧
        ∀ s', d₁.tryBlue k s c = .ok s' → ∀ y ∈ s', d₁.Ancestor y h := by
    intro c hc s hsub
    refine ⟨tryBlue_congr hd₁ hd₂ hb hs (.inr (hcands c hc)) fun y hy => .inr (hsub y hy), ?_⟩
    intro s' hs' y hy
    rcases (tryBlue_post hd₁ (hd₁.inPast hb (.inr (hcands c hc)))
      fun y hy => hd₁.inPast hb (.inr (hsub y hy))).of_ok hs' with rfl | rfl
    · exact hsub y hy
    · rcases Finset.mem_insert.1 hy with rfl | hy
      · exact hcands y hc
      · exact hsub y hy
  have hstart : ∀ y ∈ spData.blues, d₁.Ancestor y h := fun y hy => hanc hsp (hspGood.blues_inPast hy)
  refine Exn.bind_congr (Exn.foldlM_congr_inv _ hstart hstep) fun blues hblues => ?_
  have hblues : ∀ y ∈ blues, d₁.Ancestor y h :=
    Exn.foldlM_inv (fun _ (s : Finset η) => ∀ y ∈ s, d₁.Ancestor y h)
      (fun done c todo s s' hl ih => (hstep c (by simp [hl]) s ih).2 s') hstart hblues
  refine Exn.bind_congr (pastOfParents_congr hd₁ hd₂ hb hs hparents) fun past _ => ?_
  refine Exn.bind_congr (Exn.mapM_congr fun x hx => ?_) fun works _ => rfl
  rw [hblock]
  rcases Finset.mem_insert.1 (mem_ascending.1 hx) with rfl | hx
  · exact .inl rfl
  · exact .inr (hblues x hx)

end Congr

/-! ## The whole table -/

/-- The table holds, for every known fruit, the metadata computed from the table itself. -/
def Settled (d : BlockDAG η) (k : ℤ) (m : Table η (GhostdagData η)) : Prop :=
  ∀ (h : η) (b : FruitBlock η), d.blocks[h]? = some b →
    ∃ data, m[h]? = some data ∧ d.dataOf k m h = .ok data ∧ d.Computed m h data

theorem Settled.ready (hd : d.WF) (hm : d.Settled k m) {b : FruitBlock η} (hb : d.blocks[h]? = some b) :
    d.Ready m h := by
  intro x hx
  obtain ⟨xb, hxb, -⟩ := hd.ancestor hb hx
  obtain ⟨data, hdata, -, hgood, -⟩ := hm x xb hxb
  exact ⟨data, hdata, hgood⟩

/-- Metadata added for a later fruit leaves earlier computations as they were. -/
theorem dataOf_insert (hd : d.WF) {b : FruitBlock η} (hb : d.blocks[h]? = some b) (hm : d.Ready m h)
    (hx : ¬d.Ancestor x h) (data : GhostdagData η) : d.dataOf k (m.insert x data) h = d.dataOf k m h := by
  refine (dataOf_congr hd hd hb (fun _ _ => rfl) hm fun y hy => ?_).symm
  rw [Table.get_insert, if_neg]
  rintro rfl
  exact hx hy

theorem computeMetadata_settled (hd : d.WF) (k : ℤ) :
    ∃ m, d.computeMetadata k = .ok m ∧ d.Settled k m ∧ ∀ h : η, d.blocks[h]? = none → m[h]? = none := by
  refine Exn.Post.returns (P := fun m => d.Settled k m ∧ ∀ h : η, d.blocks[h]? = none → m[h]? = none) ?_
  unfold computeMetadata
  rw [topologicalHashes_eq hd, Exn.ok_bind]
  -- invariant: the fruits done so far are settled, and no others are in the table
  refine (Exn.Post.foldlM (fun done (m : Table η (GhostdagData η)) =>
    (∀ x ∈ done, ∃ data, m[x]? = some data ∧ d.dataOf k m x = .ok data ∧ d.Computed m x data) ∧
      ∀ x, x ∉ done → m[x]? = none) ?_ ?_).mono ?_ fun _ hf => hf
  · simp
  · rintro done h todo m hl ⟨hdone, hrest⟩
    have hmem : ∀ x ∈ done ++ h :: todo, ∃ b, d.blocks[x]? = some b := fun x hx =>
      mem_hashesByTime.1 (hl ▸ hx)
    obtain ⟨b, hb⟩ := hmem h (by simp)
    have hfresh : h ∉ done := by
      have := nodup_hashesByTime (d := d)
      rw [hl, List.nodup_append] at this
      exact fun hm => this.2.2 h hm h List.mem_cons_self rfl
    have hready : d.Ready m h := by
      intro x hx
      obtain ⟨data, hdata, -, hgood, -⟩ := hdone x (ancestor_before hd hl hx)
      exact ⟨data, hdata, hgood⟩
    refine (dataOf_post hd hb hready).bind fun data hdata hcomp => Exn.Post.pure ⟨?_, ?_⟩
    · have keep : ∀ {x : η} {data' : GhostdagData η}, x ≠ h → m[x]? = some data' →
          (m.insert h data)[x]? = some data' := by
        intro x data' hne hx
        rw [Table.get_insert, if_neg (Ne.symm hne), hx]
      have keepComp : ∀ {x : η} {data' : GhostdagData η}, ¬d.Ancestor h x → d.Computed m x data' →
          d.Computed (m.insert h data) x data' := by
        rintro x data' hx ⟨hgood, hsel⟩
        refine ⟨hgood, fun p hp => ?_⟩
        obtain ⟨hpar, dp, hdp, hsub⟩ := hsel p hp
        refine ⟨hpar, dp, keep ?_ hdp, hsub⟩
        rintro rfl
        exact hx (.single hpar)
      intro x hx
      rcases List.mem_append.1 hx with hx | hx
      · obtain ⟨data', hdata', hof, hcomp'⟩ := hdone x hx
        obtain ⟨xb, hxb⟩ := hmem x (by simp [hx])
        obtain ⟨s, t, rfl⟩ := List.append_of_mem hx
        have hl' : d.hashesByTime = s ++ x :: (t ++ h :: todo) := by simp [hl]
        -- an earlier fruit does not look at `h`, so what it got stays settled
        have hnot : ¬d.Ancestor h x := by
          intro hh
          have := ancestor_before hd hl' hh
          exact hfresh (by simp [this])
        have hreadyx : d.Ready m x := by
          intro y hy
          have := ancestor_before hd hl' hy
          obtain ⟨dy, hdy, -, hgood, -⟩ := hdone y (by simp [this])
          exact ⟨dy, hdy, hgood⟩
        refine ⟨data', keep (fun e => hfresh (e ▸ hx)) hdata', ?_, keepComp hnot hcomp'⟩
        rw [dataOf_insert hd hxb hreadyx hnot, hof]
      · rw [List.mem_singleton.1 hx]
        refine ⟨data, by rw [Table.get_insert, if_pos rfl], ?_, keepComp (hd.irrefl hb) hcomp⟩
        rw [dataOf_insert hd hb hready (hd.irrefl hb), hdata]
    · intro x hx
      rw [List.mem_append, List.mem_singleton, not_or] at hx
      rw [Table.get_insert, if_neg (Ne.symm hx.2), hrest x hx.1]
  · rintro m ⟨hall, hnone⟩
    refine ⟨fun h b hb => hall h (mem_hashesByTime.2 ⟨b, hb⟩), fun h hb => hnone h ?_⟩
    intro hh
    obtain ⟨b, hb'⟩ := mem_hashesByTime.1 hh
    rw [hb] at hb'
    cases hb'

/-- Two settled tables agree on a fruit with the same past in both DAGs. -/
theorem Settled.agree (hd₁ : d₁.WF) (hd₂ : d₂.WF) (hm₁ : d₁.Settled k m₁) (hm₂ : d₂.Settled k m₂)
    {b : FruitBlock η} (hb : d₁.blocks[h]? = some b) (hs : SamePast d₁ d₂ h) : m₁[h]? = m₂[h]? := by
  -- ancestors are strictly older: induction on the timestamp
  induction ht : b.timestampMs using Nat.strong_induction_on generalizing h b with
  | _ t ih =>
    subst ht
    obtain ⟨data₁, hdata₁, hof₁, -⟩ := hm₁ h b hb
    obtain ⟨data₂, hdata₂, hof₂, -⟩ := hm₂ h b (hs h (.inl rfl) ▸ hb)
    have heq : d₁.dataOf k m₁ h = d₂.dataOf k m₂ h := by
      refine dataOf_congr hd₁ hd₂ hb hs (hm₁.ready hd₁ hb) fun x hx => ?_
      obtain ⟨xb, hxb, hlt⟩ := hd₁.ancestor hb hx
      exact ih xb.timestampMs hlt hxb (hs.mono (.inr hx)) rfl
    rw [hof₁, hof₂] at heq
    cases heq
    rw [hdata₁, hdata₂]

/-- Querying the metadata of a well-formed DAG succeeds and leaves it well formed. -/
theorem ghostdagMetadata_settled (hd : d.WF) (hk : 0 ≤ k) :
    ∃ m d', d.ghostdagMetadata k = .ok (m, d') ∧ d.Settled k m ∧
      ∀ h : η, d.blocks[h]? = none → m[h]? = none := by
  obtain ⟨m, hm, hset, hnone⟩ := computeMetadata_settled hd k
  unfold ghostdagMetadata requireK
  rw [Exn.ensure_of _ hk, Exn.ok_bind]
  split
  · rename_i cached hc
    split
    · rename_i hsize
      have hfresh := hd.fresh hc hsize
      cases hm.symm.trans hfresh
      exact ⟨m, d, rfl, hset, hnone⟩
    · exact ⟨m, _, by rw [hm]; rfl, hset, hnone⟩
  · exact ⟨m, _, by rw [hm]; rfl, hset, hnone⟩

theorem visit_congr (hb : d₁.blocks = d₂.blocks) (n : ℕ) : d₁.visit n = d₂.visit n := by
  induction n with
  | zero => rfl
  | succ n ih =>
    funext s h
    simp only [visit, ih, hb]

/-- The metadata does not read the cache. -/
theorem computeMetadata_congr (hb : d₁.blocks = d₂.blocks) (ha : d₁.ancestorCache = d₂.ancestorCache) :
    d₁.computeMetadata k = d₂.computeMetadata k := by
  have hdata : d₁.dataOf k = d₂.dataOf k := by
    have hanc : d₁.ancestors = d₂.ancestors := by
      funext h
      simp only [ancestors, getBlock, hb, ha]
    funext m h
    simp only [dataOf, pastOfParents, sortedByScore, hb, hanc, funext₂ fun s x =>
      show d₁.tryBlue k s x = d₂.tryBlue k s x by simp only [tryBlue, anticoneSize, isRelated, hanc]]
  simp only [computeMetadata, topologicalHashes, hashesByTime, visit_congr hb, hb, hdata]

theorem Built.wf (hd : Built d) : d.WF := by
  induction hd with
  | empty => exact wf_empty
  | add _ hadd ih => exact addBlock_wf ih hadd
  | @query d d' k m _ hq ih =>
    obtain ⟨-, hm, hblocks, hanc, hcache⟩ := ghostdagMetadata_ok ih hq
    obtain ⟨blocks, ancestorCache, metadataCache⟩ := d'
    simp only at hblocks hanc hcache
    subst hblocks hanc
    have hcompute : ∀ j, computeMetadata ⟨d.blocks, d.ancestorCache, metadataCache⟩ j = d.computeMetadata j :=
      fun j => computeMetadata_congr rfl rfl
    refine ⟨ih.parent, ih.cached, fun {j n} hn hsize => ?_⟩
    rw [hcompute]
    simp only at hn hsize
    rcases hcache with rfl | rfl
    · exact ih.fresh hn hsize
    · rw [Table.get_insert] at hn
      split at hn
      · subst_vars
        cases hn
        exact hm
      · exact ih.fresh hn hsize

/-- `BlockDAG(blocks)`: the blocks added one after another. -/
theorem built_of_foldlM {blocks : List (FruitBlock η)} (h : blocks.foldlM addBlock BlockDAG.empty = .ok d) :
    Built d :=
  Exn.foldlM_inv (fun _ d => Built d) (fun _ _ _ _ _ _ hd hadd => .add hd hadd) .empty h

/-- A DAG that extends a well-formed one has the same pasts of the old fruits. -/
theorem SamePast.of_ext (hd : d₁.WF) (hext : Table.Ext d₁.blocks d₂.blocks) {b : FruitBlock η}
    (hb : d₁.blocks[h]? = some b) : SamePast d₁ d₂ h := by
  intro x hx
  obtain ⟨xb, hxb⟩ := hd.inPast hb hx
  rw [hxb, hext x xb hxb]

/-- The value of `ghostdag_data`, read off any settled table. -/
theorem ghostdagData_eq (hd : d.WF) (hk : 0 ≤ k) {b : FruitBlock η} (hb : d.blocks[h]? = some b) :
    ∃ m d', d.Settled k m ∧ (d.ghostdagData h k = do let data ← item m h; return (data, d')) := by
  obtain ⟨m, d', hm, hset, -⟩ := ghostdagMetadata_settled hd hk
  refine ⟨m, d', hset, ?_⟩
  simp [ghostdagData, getBlock, hb, hm]

/-- **GHOSTDAG metadata depends only on the past**, and blues and reds partition it. -/
theorem ghostdagData_of_past :
    (∀ (d₁ d₂ : BlockDAG η) (h : η) (k : ℤ), Built d₁ → Built d₂ →
      (∃ b, d₁.blocks[h]? = some b) → SamePast d₁ d₂ h →
      (d₁.ghostdagData h k).map Prod.fst = (d₂.ghostdagData h k).map Prod.fst) ∧
    ∀ (d : BlockDAG η) (h : η) (k : ℤ), Built d → (∃ b, d.blocks[h]? = some b) → 0 ≤ k →
      ∃ past data d', d.ancestors h = .ok past ∧ d.ghostdagData h k = .ok (data, d') ∧
        data.blues ∪ data.reds = insert h past ∧ Disjoint data.blues data.reds ∧
        h ∈ data.blues ∧ data.blueScore = data.blues.card ∧
        ∀ p, data.selectedParent = some p →
          ∃ pData d'', d.ghostdagData p k = .ok (pData, d'') ∧ pData.blues ⊆ data.blues := by
  constructor
  · rintro d₁ d₂ h k hd₁ hd₂ ⟨b, hb⟩ hs
    have hb₂ : d₂.blocks[h]? = some b := hs h (.inl rfl) ▸ hb
    by_cases hk : 0 ≤ k
    · obtain ⟨m₁, d₁', hset₁, h₁⟩ := ghostdagData_eq hd₁.wf hk hb
      obtain ⟨m₂, d₂', hset₂, h₂⟩ := ghostdagData_eq hd₂.wf hk hb₂
      rw [h₁, h₂, item, item, hset₁.agree hd₁.wf hd₂.wf hset₂ hb hs]
      cases m₂[h]? <;> rfl
    · simp only [ghostdagData, getBlock, hb, hb₂, ghostdagMetadata, requireK, Exn.ensure_not _ hk]
      rfl
  · rintro d h k hd ⟨b, hb⟩ hk
    have hwf := hd.wf
    obtain ⟨past, hpast, hmem⟩ := hwf.ancestors_ok hb
    obtain ⟨m, d', hm, hset, -⟩ := ghostdagMetadata_settled hwf hk
    -- every query answers from one settled table
    have hval : ∀ {x : η} {b : FruitBlock η} {data : GhostdagData η}, d.blocks[x]? = some b →
        m[x]? = some data → d.ghostdagData x k = .ok (data, d') := by
      intro x b data hb hdata
      simp [ghostdagData, getBlock, hb, hm, item, hdata]
    obtain ⟨data, hdata, -, hgood, hsel⟩ := hset h b hb
    refine ⟨past, data, d', hpast, hval hb hdata, ?_, hgood.disjoint, hgood.self, hgood.score, ?_⟩
    · ext x
      rw [hgood.mem, Finset.mem_insert, hmem, InPast]
    · intro p hp
      obtain ⟨hpar, dp, hdp, hsub⟩ := hsel p hp
      obtain ⟨pb, hpb⟩ := hwf.inPast hb (.parent hpar)
      exact ⟨dp, d', hval hpb hdp, hsub⟩

/-- Two DAGs that share a root and one child agree on the child, whatever else is there. -/
theorem ghostdagData_of_past_fork :
    ∃ d₁ d₂ : BlockDAG ℕ, Built d₁ ∧ Built d₂ ∧ d₁.blocks.keys = [1, 2] ∧ d₂.blocks.keys = [1, 2, 3] ∧
      (d₁.ghostdagData 2 0).map Prod.fst = (d₂.ghostdagData 2 0).map Prod.fst ∧
      ∃ data d', d₂.ghostdagData 2 0 = .ok (data, d') ∧ data.blueScore = data.blues.card := by
  let root : FruitBlock ℕ := ⟨1, [], 10, 1, by decide, by decide, by decide, by decide⟩
  let left : FruitBlock ℕ := ⟨2, [1], 20, 1, by decide, by decide, by decide, by decide⟩
  let right : FruitBlock ℕ := ⟨3, [1], 15, 1, by decide, by decide, by decide, by decide⟩
  obtain ⟨d₁, h₁⟩ : ∃ d, [root, left].foldlM addBlock BlockDAG.empty = .ok d := ⟨_, rfl⟩
  obtain ⟨d₂, h₂⟩ : ∃ d, [root, right, left].foldlM addBlock BlockDAG.empty = .ok d := ⟨_, rfl⟩
  have hd₁ := built_of_foldlM h₁
  have hd₂ := built_of_foldlM h₂
  cases h₁
  cases h₂
  refine ⟨_, _, hd₁, hd₂, by decide +kernel, by decide +kernel, ?_, ?_⟩
  · refine ghostdagData_of_past.1 _ _ _ _ hd₁ hd₂ ⟨left, by decide +kernel⟩ ?_
    refine SamePast.of_ext hd₁.wf (b := left) ?_ (by decide +kernel)
    intro x b hx
    rw [← Table.mem_toList] at hx ⊢
    revert hx
    generalize (x, b) = q
    revert q
    decide +kernel
  · obtain ⟨past, data, d', -, hdata, -, -, -, hscore, -⟩ :=
      ghostdagData_of_past.2 _ 2 0 hd₂ ⟨left, by decide +kernel⟩ (le_refl 0)
    exact ⟨data, d', hdata, hscore⟩

end BlockDAG

end TensorPow
