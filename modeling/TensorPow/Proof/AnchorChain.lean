import TensorPow.Proof.FruitDag

/-!
# Chains of stored anchors

* `AnchorChain n h l`: `l` are the anchors from `h` down to genesis, newest first.
* `walkAnchors_eq`: walking the parent links finds the chain.
* `AnchorOk`: what every stored anchor satisfies; in particular its metadata is its
  position above its parent.
* `anchorMeta_agree`: the metadata is determined by the stored blocks.
-/

namespace TensorPow

open Wire Sorted

variable {C : Crypto}

namespace Node

variable {n n' : Node C} {h : Hash} {a : Anchor C} {l : List (Hash × Anchor C)}

/-- The anchors from `h` down to genesis, newest first. -/
inductive AnchorChain (n : Node C) : Hash → List (Hash × Anchor C) → Prop where
  | nil : AnchorChain n genesisParentHash []
  | cons {h : Hash} {a : Anchor C} {l : List (Hash × Anchor C)} : n.loadAnchor h = some a →
      AnchorChain n a.header.parentAnchor l → AnchorChain n h ((h, a) :: l)

namespace AnchorChain

theorem mem (hc : AnchorChain n h l) : ∀ p ∈ l, n.loadAnchor p.1 = some p.2 := by
  induction hc with
  | nil => exact fun p hp => by cases hp
  | cons ha _ ih =>
    intro p hp
    rcases List.mem_cons.1 hp with rfl | hp
    · exact ha
    · exact ih p hp

theorem unique (hc : AnchorChain n h l) {l' : List (Hash × Anchor C)} (hc' : AnchorChain n h l') : l = l' := by
  induction hc generalizing l' with
  | nil =>
    cases hc' with
    | nil => rfl
    | cons ha _ => exact absurd rfl (loadAnchor_iff.1 ha).1
  | cons ha _ ih =>
    cases hc' with
    | nil => exact absurd rfl (loadAnchor_iff.1 ha).1
    | cons ha' hl' =>
      cases ha.symm.trans ha'
      rw [ih hl']

theorem head (hc : AnchorChain n h l) (ha : n.loadAnchor h = some a) :
    ∃ l', l = (h, a) :: l' ∧ AnchorChain n a.header.parentAnchor l' := by
  cases hc with
  | nil => exact absurd rfl (loadAnchor_iff.1 ha).1
  | cons ha' hl' =>
    cases ha.symm.trans ha'
    exact ⟨_, rfl, hl'⟩

theorem grows (hg : Grows n n') (hc : AnchorChain n h l) : AnchorChain n' h l := by
  induction hc with
  | nil => exact .nil
  | cons ha _ ih => exact .cons (hg.loadAnchor ha) ih

/-- From every anchor of a chain on, the rest is its chain. -/
theorem suffix (hc : AnchorChain n h l) {p : Hash × Anchor C} (hp : p ∈ l) :
    ∃ l₁ l₂, l = l₁ ++ p :: l₂ ∧ AnchorChain n p.1 (p :: l₂) := by
  induction hc with
  | nil => cases hp
  | @cons h a l ha hl ih =>
    rcases List.mem_cons.1 hp with rfl | hp
    · exact ⟨[], l, rfl, .cons ha hl⟩
    · obtain ⟨l₁, l₂, rfl, hc⟩ := ih hp
      exact ⟨(h, a) :: l₁, l₂, rfl, hc⟩

theorem nodup (hc : AnchorChain n h l) : (l.map Prod.fst).Nodup := by
  induction hc with
  | nil => exact List.nodup_nil
  | @cons h a l ha hl ih =>
    rw [List.map_cons, List.nodup_cons]
    refine ⟨fun hmem => ?_, ih⟩
    -- a second occurrence would make the chain of `h` a proper part of itself
    obtain ⟨p, hp, hph⟩ := List.mem_map.1 hmem
    obtain ⟨l₁, l₂, heq, hc⟩ := hl.suffix hp
    dsimp only at hph
    rw [hph] at hc
    have hlen := congrArg List.length (unique (.cons ha hl) hc)
    rw [heq] at hlen
    simp only [List.length_cons, List.length_append] at hlen
    omega

theorem length_le (hc : AnchorChain n h l) : l.length ≤ n.store.bodies.size := by
  rw [← List.length_map (f := Prod.fst)]
  refine Table.length_le_size _ hc.nodup fun x hx => ?_
  obtain ⟨p, hp, rfl⟩ := List.mem_map.1 hx
  exact ⟨_, (loadAnchor_iff.1 (hc.mem p hp)).2⟩

end AnchorChain

/-! ## Walking the chain -/

/-- The part of a chain a limited walk sees after `k` anchors. -/
def cut (limit : Option ℕ) (k : ℕ) (l : List (Hash × Anchor C)) : List (Hash × Anchor C) :=
  match limit with
  | none => l
  | some m => l.take (m - k)

/-- Walking the parent links finds the chain, up to the limit. -/
theorem walkAnchors_eq {limit : Option ℕ} {fuel : ℕ} {seen : List Hash} (hc : AnchorChain n h l)
    (hfuel : l.length < fuel) (hlimit : ∀ m, limit = some m → seen.length < m)
    (hseen : ∀ p ∈ l, p.1 ∉ seen) : n.walkAnchors limit fuel seen h = .ok (cut limit seen.length l) := by
  induction hc generalizing fuel seen with
  | nil =>
    obtain ⟨fuel, rfl⟩ : ∃ k, fuel = k + 1 := ⟨fuel - 1, by simp at hfuel; omega⟩
    rw [walkAnchors, if_pos rfl]
    cases limit <;> simp [cut]
  | @cons h a l ha hl ih =>
    rw [List.length_cons] at hfuel
    obtain ⟨fuel, rfl⟩ : ∃ k, fuel = k + 1 := ⟨fuel - 1, by omega⟩
    rw [walkAnchors, if_neg (loadAnchor_iff.1 ha).1, if_neg (hseen (h, a) List.mem_cons_self), ha]
    dsimp only
    split
    · rename_i heq
      subst heq
      simp [cut]
    · rename_i hne
      have hnodup := (AnchorChain.cons ha hl).nodup
      rw [List.map_cons, List.nodup_cons] at hnodup
      rw [ih (by omega)]
      · -- a limit cuts the rest one earlier, as one more anchor has been seen
        cases limit with
        | none => rfl
        | some m =>
          have hlt := hlimit m rfl
          have hm : m ≠ seen.length + 1 := fun e => hne (by rw [e])
          have heq : m - seen.length = (m - (seen.length + 1)) + 1 := by omega
          simp only [cut, Exn.ok_bind, List.length_cons]
          rw [heq, List.take_succ_cons]
          rfl
      · intro m hm
        have hlt := hlimit m hm
        have hne' : m ≠ seen.length + 1 := fun e => hne (by rw [hm, e])
        rw [List.length_cons]
        omega
      · intro p hp hmem
        rcases List.mem_cons.1 hmem with e | hmem
        · exact hnodup.1 (List.mem_map.2 ⟨p, hp, e⟩)
        · exact hseen p (List.mem_cons_of_mem _ hp) hmem

theorem anchorChainHashes_eq (hc : AnchorChain n h l) : n.anchorChainHashes h = .ok (l.map Prod.fst).reverse := by
  have hlen := hc.length_le
  unfold anchorChainHashes
  rw [walkAnchors_eq hc (by omega) (by simp) (by simp)]
  rfl

/-- The record of one anchor of a history. -/
def historyRecord (n : Node C) (p : Hash × Anchor C) : Except Stop AnchorRecord := do
  let info ← n.anchorMeta p.1
  anchorRecord p.1 p.2 info.target

theorem anchorHistory_eq (hc : AnchorChain n h l) (hne : h ≠ genesisParentHash) :
    n.anchorHistory h = (l.take anchorHistoryLookback).reverse.mapM n.historyRecord := by
  have hlen := hc.length_le
  unfold anchorHistory
  rw [Exn.ensure_of _ hne, Exn.ok_bind, walkAnchors_eq hc (by omega) (by simp [anchorHistoryLookback]) (by simp)]
  rfl

theorem anchorRecord_ok {target : Hash} {r : AnchorRecord} : anchorRecord h a target = .ok r ↔
    r = ⟨h, a.header.parentAnchor, a.header.timestampMs, target⟩ ∧ r.postInit = .ok () := by
  unfold anchorRecord
  dsimp only
  constructor
  · intro hr
    split at hr
    · rename_i hpost
      cases hr
      exact ⟨rfl, hpost⟩
    · cases hr
  · rintro ⟨rfl, hpost⟩
    rw [hpost]

/-- A history that could be read starts at a stored anchor, its last record. -/
theorem anchorHistory_last {history : List AnchorRecord} (hh : n.anchorHistory h = .ok history) :
    ∃ pa, n.loadAnchor h = some pa ∧ ∀ t, (∀ last, history.getLast? = some last → last.timestampMs < t) →
      pa.header.timestampMs < t := by
  simp only [anchorHistory, Exn.bind_ok, Exn.ensure_ok] at hh
  obtain ⟨-, hne, chain, hwalk, hmap⟩ := hh
  rw [walkAnchors, if_neg hne, if_neg (by simp)] at hwalk
  cases hpa : n.loadAnchor h with
  | none =>
    rw [hpa] at hwalk
    cases hwalk
  | some pa =>
    refine ⟨pa, rfl, fun t ht => ?_⟩
    obtain ⟨rest, rfl⟩ : ∃ rest, chain = (h, pa) :: rest := by
      rw [hpa] at hwalk
      dsimp only at hwalk
      split at hwalk
      · cases hwalk
        exact ⟨[], rfl⟩
      · obtain ⟨rest, -, hwalk⟩ := Exn.bind_ok.1 hwalk
        exact ⟨rest, (Exn.pure_ok.1 hwalk).symm⟩
    -- the parent is walked first, so it comes last in the history
    rw [List.reverse_cons, List.mapM_append] at hmap
    obtain ⟨rs, -, hmap⟩ := Exn.bind_ok.1 hmap
    obtain ⟨r, hr, hmap⟩ := Exn.bind_ok.1 hmap
    rw [← Exn.pure_ok.1 hmap] at ht
    obtain ⟨b, bs, hb, hbs, rfl⟩ := Exn.mapM_cons_ok.1 hr
    cases hbs
    obtain ⟨info, -, hb⟩ := Exn.bind_ok.1 hb
    obtain ⟨rfl, -⟩ := anchorRecord_ok.1 hb
    have := ht ⟨h, pa.header.parentAnchor, pa.header.timestampMs, info.target⟩ (by simp)
    exact this

/-! ## Stored anchors -/

/-- The metadata an anchor gets: its position, and the work up to it. -/
def HasMeta (n : Node C) (a : Anchor C) (info : AnchorMeta) : Prop :=
  ∃ parentWork weight, n.anchorPosition a = .ok (info.height, info.target, parentWork) ∧
    anchorWorkWeight info.target = .ok weight ∧ info.cumulativeWork = parentWork + weight

/-- What the checks of `process_anchor` leave true of a stored anchor. -/
structure AnchorOk (n : Node C) (h : Hash) (a : Anchor C) : Prop where
  hash : a.blockHash = h
  parent : ¬a.isGenesis → ∃ pa, n.loadAnchor a.header.parentAnchor = some pa ∧
    pa.header.timestampMs < a.header.timestampMs
  covered : ∀ x ∈ a.coveredFruitHashes, ∃ f, n.loadFruit x = some f
  info : ∃ info, n.store.anchorMeta[h]? = some info ∧ HasMeta n a info

/-- Every stored anchor passed its checks. -/
def AnchorsOk (n : Node C) : Prop := ∀ h a, n.loadAnchor h = some a → AnchorOk n h a

/-- A genesis anchor has no parent and covers nothing. -/
theorem genesis_fields (ha : a.isGenesis) :
    a.header.parentAnchor = genesisParentHash ∧ a.coveredFruitHashes = [] ∧ a.anchorRewardOutputs = [] := by
  have := a.valid
  simp only [AnchorFields.postInit, if_pos ha, AnchorFields.checkGenesis, Exn.bind_ok, Exn.ensure_ok,
    exists_and_left, exists_const] at this
  obtain ⟨-, -, -, -, -, -, -, -, ⟨hparent, hcovered, -, hrewards, -⟩, -⟩ := this
  exact ⟨hparent, hcovered, hrewards⟩

/-- Every stored anchor has a chain: parents are older. -/
theorem exists_anchorChain (hn : AnchorsOk n) (ha : n.loadAnchor h = some a) : ∃ l, AnchorChain n h l := by
  induction ht : a.header.timestampMs using Nat.strong_induction_on generalizing h a with
  | _ t ih =>
    subst ht
    by_cases hg : a.isGenesis
    · have hnil : AnchorChain n a.header.parentAnchor [] := by
        rw [(genesis_fields hg).1]
        exact .nil
      exact ⟨_, .cons ha hnil⟩
    · obtain ⟨pa, hpa, hlt⟩ := (hn h a ha).parent hg
      obtain ⟨l, hl⟩ := ih pa.header.timestampMs hlt hpa rfl
      exact ⟨_, .cons ha hl⟩

theorem anchorMeta_eq {info : AnchorMeta} (hi : n.store.anchorMeta[h]? = some info) : n.anchorMeta h = .ok info := by
  unfold anchorMeta
  rw [hi]

/-- Histories of anchors whose metadata agrees agree. -/
theorem anchorHistory_congr (hn : AnchorsOk n) (hg : Grows n n') {pa : Anchor C} (hpa : n.loadAnchor h = some pa)
    (hm : ∀ l, AnchorChain n h l → ∀ p ∈ l, n'.store.anchorMeta[p.1]? = n.store.anchorMeta[p.1]?) :
    n'.anchorMeta h = n.anchorMeta h ∧ n'.anchorHistory h = n.anchorHistory h := by
  obtain ⟨l, hl⟩ := exists_anchorChain hn hpa
  have hmeta : ∀ p ∈ l, n'.anchorMeta p.1 = n.anchorMeta p.1 := by
    intro p hp
    obtain ⟨info, hinfo, -⟩ := (hn p.1 p.2 (hl.mem p hp)).info
    rw [anchorMeta_eq hinfo, anchorMeta_eq (hm l hl p hp ▸ hinfo)]
  have hne := (loadAnchor_iff.1 hpa).1
  have hhead : (h, pa) ∈ l := by
    obtain ⟨l', rfl, -⟩ := hl.head hpa
    exact List.mem_cons_self
  refine ⟨hmeta _ hhead, ?_⟩
  rw [anchorHistory_eq hl hne, anchorHistory_eq (hl.grows hg) hne]
  refine Exn.mapM_congr fun p hp => ?_
  unfold historyRecord
  rw [hmeta p (List.mem_of_mem_take (List.mem_reverse.1 hp))]

/-- Positions above anchors whose metadata agrees agree. -/
theorem anchorPosition_congr (hn : AnchorsOk n) (hg : Grows n n')
    (hparent : ¬a.isGenesis → ∃ pa, n.loadAnchor a.header.parentAnchor = some pa)
    (hm : ∀ l, AnchorChain n a.header.parentAnchor l →
      ∀ p ∈ l, n'.store.anchorMeta[p.1]? = n.store.anchorMeta[p.1]?) :
    n'.anchorPosition a = n.anchorPosition a := by
  unfold anchorPosition
  split
  · rfl
  · rename_i hgen
    obtain ⟨pa, hpa⟩ := hparent hgen
    obtain ⟨hmeta, hhistory⟩ := anchorHistory_congr hn hg hpa hm
    rw [hmeta, hhistory]

theorem AnchorOk.grows (hn : AnchorsOk n) (ha : AnchorOk n h a) (hg : Grows n n')
    (hm : ∀ x b, n.loadAnchor x = some b → n'.store.anchorMeta[x]? = n.store.anchorMeta[x]?)
    (hstored : n.loadAnchor h = some a) : AnchorOk n' h a := by
  refine ⟨ha.hash, fun hgen => ?_, fun x hx => ?_, ?_⟩
  · obtain ⟨pa, hpa, hlt⟩ := ha.parent hgen
    exact ⟨pa, hg.loadAnchor hpa, hlt⟩
  · obtain ⟨f, hf⟩ := ha.covered x hx
    exact ⟨f, hg.loadFruit hf⟩
  · obtain ⟨info, hinfo, parentWork, weight, hpos, hweight⟩ := ha.info
    refine ⟨info, (hm h a hstored).trans hinfo, parentWork, weight, ?_, hweight⟩
    rw [anchorPosition_congr hn hg (fun hgen => ?_) fun l hl p hp => hm p.1 p.2 (hl.mem p hp), hpos]
    obtain ⟨pa, hpa, -⟩ := ha.parent hgen
    exact ⟨pa, hpa⟩

/-- **Metadata is a function of the stored blocks**: a node that has stored the same blocks
and more has the same metadata for them. -/
theorem anchorMeta_agree (hn : AnchorsOk n) (hn' : AnchorsOk n') (hg : Grows n n') (hc : AnchorChain n h l) :
    ∀ p ∈ l, n'.store.anchorMeta[p.1]? = n.store.anchorMeta[p.1]? := by
  induction hc with
  | nil => exact fun p hp => by cases hp
  | @cons h a l ha hl ih =>
    intro p hp
    rcases List.mem_cons.1 hp with rfl | hp
    · obtain ⟨info, hinfo, w, v, hpos, hweight, hwork⟩ := (hn h a ha).info
      obtain ⟨info', hinfo', w', v', hpos', hweight', hwork'⟩ := (hn' h a (hg.loadAnchor ha)).info
      have heq : n'.anchorPosition a = n.anchorPosition a := by
        refine anchorPosition_congr hn hg (fun hgen => ?_) fun l' hl' => hl.unique hl' ▸ ih
        obtain ⟨pa, hpa, -⟩ := (hn h a ha).parent hgen
        exact ⟨pa, hpa⟩
      rw [hpos, hpos'] at heq
      simp only [Except.ok.injEq, Prod.mk.injEq] at heq
      obtain ⟨hheight, htarget, rfl⟩ := heq
      rw [htarget, hweight] at hweight'
      cases hweight'
      have : info' = info := by
        cases info
        cases info'
        simp_all
      dsimp only
      rw [hinfo, hinfo', this]
    · exact ih p hp

end Node

end TensorPow
