import TensorPow.Proof.Conservation
import TensorPow.Spec.Turbine

/-!
# The relay tree spans the peers

The loop moves peers from the front of `remaining` to the back of the queue, so `queue`
followed by `remaining` is always an end of the sorted peers, and the parents are its front.

* `Spans`: what the assignments do to a queue and the remaining peers.
* `assignLoop_spans`: the loop never finds the queue empty, and its assignments span.
* `Spans.children`, `Spans.parents`, `Spans.reach`: every remaining peer is handed over once,
  every parent was taken off the queue once, and every remaining peer is below the queue.
* `arrivalLoop_ok`: a chunk arrives at all of them.
-/

namespace TensorPow.Turbine

open Wire Exn Sorted

/-! ## Assignments -/

/-- Taking parents off a queue, each with children off the front of the remaining peers. -/
inductive Spans (maxFanout : ℕ) : List Bytes → List Bytes → List Assignment → Prop where
  | done (queue : List Bytes) : Spans maxFanout queue [] []
  | assign {queue rest : List Bytes} {a : Assignment} {as : List Assignment} (hne : a.childPeerIds ≠ [])
      (hfanout : a.childPeerIds.length ≤ maxFanout) (h : Spans maxFanout (queue ++ a.childPeerIds) rest as) :
      Spans maxFanout (a.parentPeerId :: queue) (a.childPeerIds ++ rest) (a :: as)

/-- One of the assignments hands `child` to `parent`. -/
def Handed (as : List Assignment) (parent child : Bytes) : Prop :=
  ∃ a ∈ as, a.parentPeerId = parent ∧ child ∈ a.childPeerIds

theorem Handed.cons {a : Assignment} {as : List Assignment} {parent child : Bytes} (h : Handed as parent child) :
    Handed (a :: as) parent child := by
  obtain ⟨b, hb, hparent, hchild⟩ := h
  exact ⟨b, List.mem_cons_of_mem _ hb, hparent, hchild⟩

namespace Spans

variable {maxFanout : ℕ} {queue remaining : List Bytes} {as : List Assignment}

theorem children (h : Spans maxFanout queue remaining as) : (as.flatMap fun a => a.childPeerIds) = remaining := by
  induction h with
  | done queue => rfl
  | assign hne hfanout h ih => rw [List.flatMap_cons, ih]

theorem parents (h : Spans maxFanout queue remaining as) :
    as.map (fun a => a.parentPeerId) <+: queue ++ remaining := by
  induction h with
  | done queue => exact List.nil_prefix
  | assign hne hfanout h ih =>
    rw [List.append_assoc] at ih
    exact List.cons_prefix_cons.2 ⟨rfl, ih⟩

theorem fanout (h : Spans maxFanout queue remaining as) : ∀ a ∈ as, a.childPeerIds.length ≤ maxFanout := by
  induction h with
  | done queue =>
    intro a ha
    cases ha
  | assign hne hfanout h ih =>
    intro b hb
    rcases List.mem_cons.1 hb with rfl | hb
    · exact hfanout
    · exact ih b hb

/-- Every remaining peer is below one that was in the queue. -/
theorem reach (h : Spans maxFanout queue remaining as) :
    ∀ id ∈ remaining, ∃ q ∈ queue, Relation.ReflTransGen (Handed as) q id := by
  induction h with
  | done queue =>
    intro id hid
    cases hid
  | @assign queue rest a as hne hfanout h ih =>
    have hmono : ∀ {p q}, Relation.ReflTransGen (Handed as) p q → Relation.ReflTransGen (Handed (a :: as)) p q :=
      fun hpath => Relation.ReflTransGen.mono (fun _ _ => Handed.cons) _ _ hpath
    have hchild : ∀ id ∈ a.childPeerIds, Relation.ReflTransGen (Handed (a :: as)) a.parentPeerId id := by
      intro id hid
      exact Relation.ReflTransGen.single ⟨a, List.mem_cons_self, rfl, hid⟩
    intro id hid
    rcases List.mem_append.1 hid with hid | hid
    · exact ⟨_, List.mem_cons_self, hchild id hid⟩
    · obtain ⟨q, hq, hpath⟩ := ih id hid
      rcases List.mem_append.1 hq with hq | hq
      · exact ⟨q, List.mem_cons_of_mem _ hq, hmono hpath⟩
      · exact ⟨_, List.mem_cons_self, (hchild q hq).trans (hmono hpath)⟩

/-- A peer that is handed over has one parent. -/
theorem unique_parent (h : Spans maxFanout queue remaining as) (hnodup : remaining.Nodup) {id p p' : Bytes}
    (hp : Handed as p id) (hp' : Handed as p' id) : p = p' := by
  obtain ⟨a, ha, rfl, hid⟩ := hp
  obtain ⟨b, hb, rfl, hid'⟩ := hp'
  rw [← h.children, List.nodup_flatMap] at hnodup
  have hsymm : Std.Symm (Function.onFun List.Disjoint fun a : Assignment => a.childPeerIds) := ⟨fun _ _ hd => hd.symm⟩
  by_contra hne
  have hdisjoint := hnodup.2.forall ha hb fun hab => hne (by rw [hab])
  exact hdisjoint hid hid'

end Spans

theorem Assignment.make_ok {f : AssignmentFields} {a : Assignment} :
    Assignment.make f = .ok a ↔ a.toAssignmentFields = f := by
  unfold Assignment.make
  split
  · rw [Except.ok.injEq]
    exact ⟨fun h => h ▸ rfl, fun h => by cases h; rfl⟩
  · rename_i e he
    refine ⟨fun h => (by cases h), fun h => ?_⟩
    rw [← h, a.valid] at he
    cases he

theorem requirePeerId_ok (p : Peer) : requirePeerId p.peerId = .ok () := by
  have hvalid := p.valid
  simp only [PeerFields.postInit, bind_ok] at hvalid
  obtain ⟨u, hid, -⟩ := hvalid
  exact hid

/-- An assignment of distinct peers passes its checks. -/
theorem assignment_returns (parent : Peer) {children : List Peer} (hnodup : (children.map fun p => p.peerId).Nodup) :
    ∃ a : Assignment, Assignment.make ⟨parent.peerId, children.map fun p => p.peerId⟩ = .ok a ∧
      a.toAssignmentFields = ⟨parent.peerId, children.map fun p => p.peerId⟩ := by
  have hvalid : (⟨parent.peerId, children.map fun p => p.peerId⟩ : AssignmentFields).postInit = .ok () := by
    simp only [AssignmentFields.postInit]
    rw [requirePeerId_ok, ok_bind, ensure_of _ hnodup, ok_bind, forM_ok]
    intro id hid
    obtain ⟨p, -, rfl⟩ := List.mem_map.1 hid
    exact requirePeerId_ok p
  exact ⟨⟨_, hvalid⟩, Assignment.make_ok.2 rfl, rfl⟩

theorem adaptiveFanout_ge (peer : Peer) {maxFanout : ℕ} (h : minFanout ≤ maxFanout) :
    2 ≤ adaptiveFanout peer maxFanout ∧ adaptiveFanout peer maxFanout ≤ maxFanout := by
  unfold adaptiveFanout minFanout at *
  dsimp only
  constructor
  · split_ifs <;> omega
  · exact min_le_left _ _

/-- **The loop spans.** A parent takes at least one child, so the queue never gets shorter. -/
theorem assignLoop_spans {maxFanout fuel : ℕ} (hmax : minFanout ≤ maxFanout) {queue remaining : List Peer}
    (hqueue : queue ≠ []) (hnodup : (remaining.map fun p => p.peerId).Nodup) (hfuel : remaining.length ≤ fuel) :
    ∃ as, assignLoop maxFanout fuel queue remaining = .ok as ∧
      Spans maxFanout (queue.map fun p => p.peerId) (remaining.map fun p => p.peerId) as := by
  induction fuel generalizing queue remaining with
  | zero =>
    have hnil : remaining = [] := List.length_eq_zero_iff.1 (by omega)
    subst hnil
    exact ⟨[], by cases queue <;> rfl, .done _⟩
  | succ fuel ih =>
    cases remaining with
    | nil => exact ⟨[], by cases queue <;> rfl, .done _⟩
    | cons next more =>
      obtain ⟨parent, queue, rfl⟩ := List.exists_cons_of_ne_nil hqueue
      obtain ⟨htwo, hle⟩ := adaptiveFanout_ge parent hmax
      set remaining := next :: more with hremaining
      have hlength : remaining.length = more.length + 1 := by rw [hremaining, List.length_cons]
      set fanout := min (adaptiveFanout parent maxFanout) remaining.length with hfanout
      have hpos : 1 ≤ fanout := by omega
      have hsplit : remaining.take fanout ++ remaining.drop fanout = remaining := List.take_append_drop _ _
      have hchildren : ((remaining.take fanout).map fun p => p.peerId).Nodup :=
        ((List.take_sublist _ _).map _).nodup hnodup
      have hrest : ((remaining.drop fanout).map fun p => p.peerId).Nodup :=
        ((List.drop_sublist _ _).map _).nodup hnodup
      obtain ⟨a, hmake, hfields⟩ := assignment_returns parent hchildren
      have hdrop : (remaining.drop fanout).length ≤ fuel := by
        rw [List.length_drop]
        omega
      -- the parent takes at least one child, so the queue does not run dry
      have hqueue' : queue ++ remaining.take fanout ≠ [] := by
        intro hnil
        have htake := (List.append_eq_nil_iff.1 hnil).2
        have hzero := congrArg List.length htake
        rw [List.length_take, List.length_nil] at hzero
        omega
      obtain ⟨as, hloop, hspans⟩ := ih hqueue' hrest hdrop
      refine ⟨a :: as, ?_, ?_⟩
      · change (Assignment.make _ >>= fun assignment => _) = _
        rw [hmake, ok_bind, hloop]
        rfl
      · have hids : a.childPeerIds = (remaining.take fanout).map fun p => p.peerId := by rw [hfields]
        have hparent : a.parentPeerId = parent.peerId := by rw [hfields]
        rw [List.map_append, ← hids] at hspans
        have hcount : a.childPeerIds.length = fanout := by
          rw [hids, List.length_map, List.length_take]
          omega
        have hassign := Spans.assign (a := a) (by
          intro hnil
          rw [hnil, List.length_nil] at hcount
          omega) (by omega) hspans
        rw [hids, ← List.map_append, hsplit, hparent] at hassign
        exact hassign

/-! ## Arrivals -/

/-- The peers that a chunk has reached. -/
def Arrived (arrivals : Table Bytes ℕ) (ids : List Bytes) : Prop := ∀ id, (∃ n, item arrivals id = .ok n) ↔ id ∈ ids

theorem Arrived.insert {arrivals : Table Bytes ℕ} {ids : List Bytes} (h : Arrived arrivals ids) (id : Bytes) (n : ℕ) :
    Arrived (arrivals.insert id n) (ids ++ [id]) := by
  intro id'
  have hold := h id'
  simp only [item_ok] at hold ⊢
  rw [Table.get_insert, List.mem_append, List.mem_singleton]
  by_cases heq : id = id'
  · simp [heq]
  · rw [if_neg heq, hold]
    exact ⟨.inl, fun hmem => hmem.resolve_right fun h => heq h.symm⟩

/-- With no dropouts the children of a parent are all reached, and all queued. -/
theorem arrive_all {peers : Table Bytes Peer} (chunkSize parentArrival : ℕ) (parent : Peer)
    {children : List Bytes} (hpeers : ∀ id ∈ children, ∃ p, peers[id]? = some p) {arrivals : Table Bytes ℕ}
    (queue : List Bytes) {ids : List Bytes} (harrived : Arrived arrivals ids) :
    ∃ arrivals', children.foldlM (arrive peers chunkSize ∅ parent parentArrival) (arrivals, queue) =
        .ok (arrivals', queue ++ children) ∧ Arrived arrivals' (ids ++ children) := by
  induction children generalizing arrivals queue ids with
  | nil =>
    rw [List.append_nil, List.append_nil]
    exact ⟨arrivals, rfl, harrived⟩
  | cons id children ih =>
    obtain ⟨p, hp⟩ := hpeers id List.mem_cons_self
    set n := parentArrival + edgeLatencyMs parent p chunkSize with hn
    have hstep : arrive peers chunkSize ∅ parent parentArrival (arrivals, queue) id =
        .ok (arrivals.insert id n, queue ++ [id]) := by
      unfold arrive
      rw [if_neg (Finset.notMem_empty id), item_ok.2 hp]
      rfl
    obtain ⟨arrivals', hfold, harrived'⟩ := ih (fun id' h => hpeers id' (List.mem_cons_of_mem _ h))
      (queue ++ [id]) (harrived.insert id n)
    rw [List.append_assoc, List.singleton_append] at hfold harrived'
    exact ⟨arrivals', foldlM_cons_ok.2 ⟨_, hstep, hfold⟩, harrived'⟩

/-- **Every remaining peer is reached.** The queue of the arrivals is the queue of the
assignments, so each round takes the next assignment, or a peer without children. -/
theorem arrivalLoop_ok {maxFanout chunkSize : ℕ} {children : Table Bytes (List Bytes)} {peers : Table Bytes Peer}
    (fuel : ℕ) {queue remaining ids : List Bytes} {as : List Assignment} {arrivals : Table Bytes ℕ}
    (hspans : Spans maxFanout queue remaining as) (hnodup : (queue ++ remaining).Nodup)
    (hpeers : ∀ id ∈ queue ++ remaining, ∃ p, peers[id]? = some p)
    (hchildren : ∀ a ∈ as, children[a.parentPeerId]? = some a.childPeerIds)
    (hleaf : ∀ id ∈ queue ++ remaining, id ∉ as.map (fun a => a.parentPeerId) → children[id]? = none)
    (harrived : Arrived arrivals ids) (hqueue : ∀ id ∈ queue, id ∈ ids) (hfuel : (queue ++ remaining).length ≤ fuel) :
    ∃ arrivals', arrivalLoop children peers chunkSize ∅ fuel arrivals queue = .ok arrivals' ∧
      Arrived arrivals' (ids ++ remaining) := by
  induction fuel generalizing queue remaining ids as arrivals with
  | zero =>
    obtain ⟨rfl, rfl⟩ := List.append_eq_nil_iff.1 (List.length_eq_zero_iff.1 (by omega : (queue ++ remaining).length = 0))
    rw [List.append_nil]
    exact ⟨arrivals, rfl, harrived⟩
  | succ fuel ih =>
    cases hspans with
    | done queue =>
      rw [List.append_nil] at *
      cases queue with
      | nil => exact ⟨arrivals, rfl, harrived⟩
      | cons parentId queue =>
        -- no assignment is left, so this peer hands the chunk to nobody
        obtain ⟨parent, hparent⟩ := hpeers parentId List.mem_cons_self
        obtain ⟨n, hn⟩ := (harrived parentId).2 (hqueue parentId List.mem_cons_self)
        have hnone := hleaf parentId List.mem_cons_self List.not_mem_nil
        obtain ⟨arrivals', hloop, harrived'⟩ := ih (.done queue) (by simpa using (List.nodup_cons.1 hnodup).2)
          (by simpa using fun id h => hpeers id (List.mem_cons_of_mem _ h)) (by simp)
          (by simpa using fun id h => hleaf id (List.mem_cons_of_mem _ h) List.not_mem_nil) harrived
          (fun id h => hqueue id (List.mem_cons_of_mem _ h)) (by simpa using hfuel)
        rw [List.append_nil] at harrived'
        refine ⟨arrivals', ?_, harrived'⟩
        change (item peers parentId >>= fun parent => _) = _
        rw [item_ok.2 hparent, ok_bind, hn, ok_bind, hnone]
        exact hloop
    | @assign queue rest a as hne hfanout hspans =>
      obtain ⟨parent, hparent⟩ := hpeers a.parentPeerId List.mem_cons_self
      obtain ⟨n, hn⟩ := (harrived a.parentPeerId).2 (hqueue _ List.mem_cons_self)
      have hsome := hchildren a List.mem_cons_self
      rw [List.cons_append, ← List.append_assoc] at hnodup hpeers hleaf hfuel
      obtain ⟨hroot, hnodup⟩ := List.nodup_cons.1 hnodup
      have hbelow : ∀ id ∈ a.childPeerIds, id ∈ queue ++ a.childPeerIds ++ rest := by
        intro id hid
        exact List.mem_append_left _ (List.mem_append_right _ hid)
      -- the children have the chunk, and join the queue
      obtain ⟨reached, hfold, hreached⟩ := arrive_all chunkSize n parent
        (fun id hid => hpeers id (List.mem_cons_of_mem _ (hbelow id hid))) queue harrived
      obtain ⟨arrivals', hloop, harrived'⟩ := ih hspans hnodup (fun id h => hpeers id (List.mem_cons_of_mem _ h))
        (fun b hb => hchildren b (List.mem_cons_of_mem _ hb)) (by
          intro id hid hparents
          refine hleaf id (List.mem_cons_of_mem _ hid) ?_
          rw [List.map_cons, List.mem_cons, not_or]
          exact ⟨fun heq => hroot (heq ▸ hid), hparents⟩) hreached (by
          intro id hid
          rcases List.mem_append.1 hid with hid | hid
          · exact List.mem_append_left _ (hqueue id (List.mem_cons_of_mem _ hid))
          · exact List.mem_append_right _ hid) (by simpa using hfuel)
      rw [List.append_assoc] at harrived'
      refine ⟨arrivals', ?_, harrived'⟩
      change (item peers a.parentPeerId >>= fun parent => _) = _
      rw [item_ok.2 hparent, ok_bind, hn, ok_bind, hsome]
      change (a.childPeerIds.foldlM _ _ >>= fun acc => _) = _
      rw [hfold]
      exact hloop

/-! ## The tree -/

theorem RelayTree.make_ok {f : RelayTreeFields} {t : RelayTree} : RelayTree.make f = .ok t ↔ t.toRelayTreeFields = f := by
  unfold RelayTree.make
  split
  · rw [Except.ok.injEq]
    exact ⟨fun h => h ▸ rfl, fun h => by cases h; rfl⟩
  · rename_i e he
    refine ⟨fun h => (by cases h), fun h => ?_⟩
    rw [← h, t.valid] at he
    cases he

theorem canonicalPeers_ok {peers : List Peer} (hne : peers ≠ []) (hids : (peers.map fun p => p.peerId).Nodup) :
    canonicalPeers peers = .ok peers := by
  obtain ⟨seen, hseen⟩ := foldlM_fresh (fun p : Peer => p.peerId) (f := checkPeer) (s := ∅) (l := peers)
    (by
      intro s p _ hfresh
      unfold checkPeer
      rw [ensure_of _ hfresh]
      rfl) hids fun p _ => Finset.notMem_empty _
  unfold canonicalPeers
  rw [ensure_of _ hne, ok_bind, hseen]
  rfl

/-- Assignments that hand every peer over once make a tree. -/
theorem relayTree_returns (root : Peer) {as : List Assignment} (h : (as.flatMap fun a => a.childPeerIds).Nodup) :
    ∃ t : RelayTree, RelayTree.make ⟨root.peerId, as⟩ = .ok t ∧ t.toRelayTreeFields = ⟨root.peerId, as⟩ := by
  have hvalid : (⟨root.peerId, as⟩ : RelayTreeFields).postInit = .ok () := by
    obtain ⟨seen, hseen⟩ := foldlM_fresh (fun id : Bytes => id) (f := seeChild) (s := ∅)
      (l := as.flatMap fun a => a.childPeerIds) (by
        intro s id _ hfresh
        unfold seeChild
        rw [ensure_of _ hfresh]
        rfl) (by rwa [List.map_id']) fun _ _ => Finset.notMem_empty _
    unfold RelayTreeFields.postInit
    rw [requirePeerId_ok, ok_bind, foldlM_flatMap, hseen]
    rfl
  exact ⟨⟨_, hvalid⟩, RelayTree.make_ok.2 rfl, rfl⟩

theorem treeKey_inj {C : Crypto} {anchorSeed : Hash} {p q : Peer} (h : treeKey C anchorSeed p = treeKey C anchorSeed q) :
    p.peerId = q.peerId :=
  congrArg (fun key : ℤ ×ₗ Hash ×ₗ Bytes => (ofLex (ofLex key).2).2) h

/-- A tree over peer ids: the root has no parent, every other peer has one, no peer is a
parent twice, and all are below the root. -/
structure RelayTree.SpanningTree (t : RelayTree) (ids : List Bytes) (maxFanout : ℕ) : Prop where
  root_mem : t.rootPeerId ∈ ids
  root_top : ∀ parent, ¬Handed t.assignments parent t.rootPeerId
  inside : ∀ parent child, Handed t.assignments parent child → parent ∈ ids ∧ child ∈ ids
  one_parent : ∀ id ∈ ids, id ≠ t.rootPeerId → ∃! parent, Handed t.assignments parent id
  parents_once : (t.assignments.map fun a => a.parentPeerId).Nodup
  reachable : ∀ id ∈ ids, Relation.ReflTransGen (Handed t.assignments) t.rootPeerId id
  fanout_le : ∀ a ∈ t.assignments, a.childPeerIds.length ≤ maxFanout

theorem handed_iff {as : List Assignment} {id : Bytes} :
    (∃ parent, Handed as parent id) ↔ id ∈ as.flatMap fun a => a.childPeerIds := by
  rw [List.mem_flatMap]
  constructor
  · rintro ⟨parent, a, ha, -, hid⟩
    exact ⟨a, ha, hid⟩
  · rintro ⟨a, ha, hid⟩
    exact ⟨_, a, ha, rfl, hid⟩

/-- What the loop assigns from one root is a spanning tree. -/
theorem Spans.spanningTree {t : RelayTree} {maxFanout : ℕ} {remaining : List Bytes}
    (h : Spans maxFanout [t.rootPeerId] remaining t.assignments) (hnodup : (t.rootPeerId :: remaining).Nodup)
    {ids : List Bytes} (hids : ∀ id, id ∈ ids ↔ id ∈ t.rootPeerId :: remaining) : t.SpanningTree ids maxFanout := by
  obtain ⟨hroot, hremaining⟩ := List.nodup_cons.1 hnodup
  have hchild : ∀ {id}, (∃ parent, Handed t.assignments parent id) ↔ id ∈ remaining := by
    intro id
    rw [handed_iff, h.children]
  refine ⟨(hids _).2 List.mem_cons_self, ?_, ?_, ?_, ?_, ?_, h.fanout⟩
  · intro parent hparent
    exact hroot (hchild.1 ⟨parent, hparent⟩)
  · intro parent child hhanded
    obtain ⟨a, ha, hparent, -⟩ := id hhanded
    have hmem : parent ∈ t.rootPeerId :: remaining := h.parents.subset (hparent ▸ List.mem_map_of_mem ha)
    exact ⟨(hids _).2 hmem, (hids _).2 (List.mem_cons_of_mem _ (hchild.1 ⟨parent, hhanded⟩))⟩
  · intro id hid hne
    obtain ⟨parent, hparent⟩ := hchild.2 ((List.mem_cons.1 ((hids id).1 hid)).resolve_left hne)
    exact ⟨parent, hparent, fun other hother => h.unique_parent hremaining hother hparent⟩
  · exact h.parents.sublist.nodup hnodup
  · intro id hid
    rcases List.mem_cons.1 ((hids id).1 hid) with rfl | hid
    · exact .refl
    · obtain ⟨q, hq, hpath⟩ := h.reach id hid
      rwa [List.mem_singleton.1 hq] at hpath

/-- The children looked up in a tree are those assigned. -/
theorem childrenByParent_get {t : RelayTree} (hparents : (t.assignments.map fun a => a.parentPeerId).Nodup) :
    (∀ a ∈ t.assignments, t.childrenByParent[a.parentPeerId]? = some a.childPeerIds) ∧
      ∀ id, id ∉ t.assignments.map (fun a => a.parentPeerId) → t.childrenByParent[id]? = none := by
  unfold RelayTree.childrenByParent
  constructor
  · intro a ha
    apply Table.get_putAll_of_mem
    · rw [List.map_map]
      exact hparents
    · exact List.mem_map_of_mem ha
  · intro id hid
    rw [Table.get_putAll_of_notMem, Table.get_empty]
    intro v hv
    obtain ⟨a, ha, heq⟩ := List.mem_map.1 hv
    exact hid (List.mem_map.2 ⟨a, ha, congrArg Prod.fst heq⟩)

theorem peerById_get {peers : List Peer} (hids : (peers.map fun p => p.peerId).Nodup) {p : Peer} (h : p ∈ peers) :
    (peerById peers)[p.peerId]? = some p := by
  apply Table.get_putAll_of_mem
  · rw [List.map_map]
    exact hids
  · exact List.mem_map_of_mem h

/-- A chunk sent along assignments that span reaches every peer. -/
theorem arrivalTimes_ok {t : RelayTree} {maxFanout : ℕ} {remaining : List Bytes}
    (h : Spans maxFanout [t.rootPeerId] remaining t.assignments) (hnodup : (t.rootPeerId :: remaining).Nodup)
    {peers : Table Bytes Peer} (hpeers : ∀ id ∈ t.rootPeerId :: remaining, ∃ p, peers[id]? = some p) (chunkSize : ℕ) :
    ∃ arrivals, arrivalTimes t peers chunkSize ∅ = .ok arrivals ∧ Arrived arrivals (t.rootPeerId :: remaining) := by
  obtain ⟨hget, hnone⟩ := childrenByParent_get (h.parents.sublist.nodup hnodup)
  have hstart : Arrived ((∅ : Table Bytes ℕ).insert t.rootPeerId 0) [t.rootPeerId] := by
    have hempty : Arrived ∅ [] := by
      intro id
      simp
    exact hempty.insert t.rootPeerId 0
  unfold arrivalTimes
  rw [if_neg (Finset.notMem_empty _)]
  exact arrivalLoop_ok _ h hnodup hpeers hget (fun id _ => hnone id) hstart (fun id h => h)
    (Table.length_le_size peers hnodup hpeers)

/-- **The relay tree is a spanning tree.** It does not depend on the order of the peers, and
with no dropouts a chunk arrives at every peer. -/
theorem relayTree_spans (C : Crypto) (anchorSeed : Hash) {peers : List Peer} {maxFanout : ℕ} (hne : peers ≠ [])
    (hids : (peers.map fun p => p.peerId).Nodup) (hmax : minFanout ≤ maxFanout) :
    ∃ tree, deriveRelayTree C anchorSeed peers maxFanout = .ok tree ∧
      tree.SpanningTree (peers.map fun p => p.peerId) maxFanout ∧
      (∀ peers', peers.Perm peers' → deriveRelayTree C anchorSeed peers' maxFanout = .ok tree) ∧
      ∀ chunkSize, ∃ arrivals, arrivalTimes tree (peerById peers) chunkSize ∅ = .ok arrivals ∧
        ∀ p ∈ peers, ∃ n, arrivals[p.peerId]? = some n := by
  have hperm := perm_sortBy (treeKey C anchorSeed) peers
  obtain ⟨root, remaining, hsorted⟩ : ∃ root remaining, sortBy (treeKey C anchorSeed) peers = root :: remaining := by
    apply List.exists_cons_of_ne_nil
    intro hnil
    rw [hnil] at hperm
    exact hne hperm.nil_eq.symm
  rw [hsorted] at hperm
  have hidsPerm := hperm.map fun p => p.peerId
  have hnodup : ((root :: remaining).map fun p => p.peerId).Nodup := hidsPerm.nodup_iff.2 hids
  have hpositive : maxFanout ≠ 0 := by
    unfold minFanout at hmax
    omega
  obtain ⟨as, hloop, hspans⟩ := assignLoop_spans hmax (List.cons_ne_nil root [])
    (List.nodup_cons.1 hnodup).2 le_rfl
  have hchildren : (as.flatMap fun a => a.childPeerIds).Nodup := by
    rw [hspans.children]
    exact (List.nodup_cons.1 hnodup).2
  obtain ⟨tree, hmake, hfields⟩ := relayTree_returns root hchildren
  -- ids do not repeat, so the sort has one outcome whatever the order
  have hderive : ∀ peers', peers.Perm peers' → deriveRelayTree C anchorSeed peers' maxFanout = .ok tree := by
    intro peers' hpeers'
    have hids' : (peers'.map fun p => p.peerId).Nodup := (hpeers'.map _).nodup_iff.1 hids
    have hne' : peers' ≠ [] := fun h => hne (List.perm_nil.1 (h ▸ hpeers'))
    have hsame : sortBy (treeKey C anchorSeed) peers' = root :: remaining := by
      rw [← hsorted]
      refine (sortBy_perm ?_ hpeers').symm
      intro p hp q hq hkey
      exact List.inj_on_of_nodup_map hids hp hq (treeKey_inj hkey)
    unfold deriveRelayTree requirePositiveInt
    rw [canonicalPeers_ok hne' hids', ok_bind, ensure_of _ hpositive, ok_bind, ensure_of _ hmax, ok_bind, hsame]
    dsimp only
    rw [hloop, ok_bind, hmake]
  have hroot : tree.rootPeerId = root.peerId := by rw [hfields]
  have has : tree.assignments = as := by rw [hfields]
  rw [← has, List.map_singleton, ← hroot] at hspans
  rw [List.map_cons, ← hroot] at hnodup
  have hall : ∀ id, id ∈ peers.map (fun p => p.peerId) ↔ id ∈ tree.rootPeerId :: remaining.map fun p => p.peerId := by
    intro id
    rw [hroot, ← List.map_cons (f := fun p : Peer => p.peerId)]
    exact hidsPerm.mem_iff.symm
  refine ⟨tree, hderive peers (.refl _), hspans.spanningTree hnodup hall, hderive, ?_⟩
  intro chunkSize
  have hpeers : ∀ id ∈ tree.rootPeerId :: remaining.map (fun p => p.peerId), ∃ p, (peerById peers)[id]? = some p := by
    intro id hid
    obtain ⟨p, hp, rfl⟩ := List.mem_map.1 ((hall id).2 hid)
    exact ⟨p, peerById_get hids hp⟩
  obtain ⟨arrivals, harrivals, harrived⟩ := arrivalTimes_ok hspans hnodup hpeers chunkSize
  refine ⟨arrivals, harrivals, ?_⟩
  intro p hp
  obtain ⟨n, hn⟩ := (harrived p.peerId).2 ((hall _).1 (List.mem_map_of_mem hp))
  exact ⟨n, item_ok.1 hn⟩

theorem fastPeer_valid : (⟨[1], 1, 4000⟩ : PeerFields).postInit = .ok () := rfl

theorem slowPeer_valid : (⟨[2], 10, 1⟩ : PeerFields).postInit = .ok () := rfl

/-- A peer that may have sixteen children. -/
def fastPeer : Peer := ⟨⟨[1], 1, 4000⟩, fastPeer_valid⟩

/-- A peer that may have two. -/
def slowPeer : Peer := ⟨⟨[2], 10, 1⟩, slowPeer_valid⟩

theorem relayTree_spans_pair :
    ∃ tree, deriveRelayTree sampleCrypto genesisParentHash [slowPeer, fastPeer] 2 = .ok tree ∧
      tree.SpanningTree [[2], [1]] 2 ∧
      (∀ peers', [slowPeer, fastPeer].Perm peers' →
        deriveRelayTree sampleCrypto genesisParentHash peers' 2 = .ok tree) ∧
      ∀ chunkSize, ∃ arrivals, arrivalTimes tree (peerById [slowPeer, fastPeer]) chunkSize ∅ = .ok arrivals ∧
        ∀ p ∈ [slowPeer, fastPeer], ∃ n, arrivals[p.peerId]? = some n :=
  relayTree_spans sampleCrypto genesisParentHash (by decide) (by decide) (by decide)

end TensorPow.Turbine
