import TensorPow.Spec.Subscriptions

/-!
# What a subscription gets

* `Slots`, `Represents`: the three maps as one map, from an id to its subscription, its queue
  and its deadline.
* `Effect`, `perform_effect`: what a call can do to the slots, said once.
* `SessionOk`: the invariant. Every slot was made by a call in the log, and its queue keeps
  accounts with what was published and drained since.
* `hub_delivers`: the hub over whole sessions.
-/

namespace TensorPow

open Exn Relation

namespace Rpc

variable {Time Payload : Type}

/-! ## Slots -/

/-- What the hub keeps for an id. -/
structure Slot (Time Payload : Type) where
  subscription : Subscription
  queue : List (Event Payload)
  deadline : Time

/-- What the hub keeps for every id. -/
abbrev Slots (Time Payload : Type) := String → Option (Slot Time Payload)

/-- What is left of the slots at a time. -/
def Slots.expire [LinearOrder Time] (now : Time) (f : Slots Time Payload) : Slots Time Payload :=
  fun id => (f id).filter fun slot => decide (now < slot.deadline)

/-- The three maps have the same keys, and these slots. -/
structure Represents (hub : Hub Time Payload) (f : Slots Time Payload) : Prop where
  subscriptions_eq : ∀ id : String, hub.subscriptions[id]? = (f id).map Slot.subscription
  events_eq : ∀ id : String, hub.events[id]? = (f id).map Slot.queue
  expiresAt_eq : ∀ id : String, hub.expiresAt[id]? = (f id).map Slot.deadline

/-! One map among the three. -/

section Column

variable {V : Type} {t : Table String V} {f : Slots Time Payload} {g : Slot Time Payload → V}

theorem column_erase (h : ∀ a : String, t[a]? = (f a).map g) (id a : String) :
    (t.erase id)[a]? = (Function.update f id none a).map g := by
  rw [Table.get_erase, h]
  by_cases ha : id = a
  · subst ha
    rw [if_pos rfl, Function.update_self]
    rfl
  · rw [if_neg ha, Function.update_of_ne (Ne.symm ha)]

theorem column_insert (h : ∀ a : String, t[a]? = (f a).map g) (id : String) (slot : Slot Time Payload) (a : String) :
    (t.insert id (g slot))[a]? = (Function.update f id (some slot) a).map g := by
  rw [Table.get_insert, h]
  by_cases ha : id = a
  · subst ha
    rw [if_pos rfl, Function.update_self]
    rfl
  · rw [if_neg ha, Function.update_of_ne (Ne.symm ha)]

/-- A slot that changes elsewhere. -/
theorem column_same (h : ∀ a : String, t[a]? = (f a).map g) {id : String} {slot slot' : Slot Time Payload}
    (hslot : f id = some slot) (hsame : g slot' = g slot) (a : String) :
    t[a]? = (Function.update f id (some slot') a).map g := by
  rw [h]
  by_cases ha : a = id
  · subst ha
    rw [Function.update_self, hslot, Option.map_some, Option.map_some, hsame]
  · rw [Function.update_of_ne ha]

end Column

namespace Represents

variable {hub : Hub Time Payload} {f : Slots Time Payload} {id : String} {slot : Slot Time Payload}

theorem init : Represents (Hub.init : Hub Time Payload) fun _ => none :=
  ⟨fun _ => Table.get_empty _, fun _ => Table.get_empty _, fun _ => Table.get_empty _⟩

/-- The slots of a hub are determined by its maps. -/
theorem unique {f' : Slots Time Payload} (h : Represents hub f) (h' : Represents hub f') : f = f' := by
  funext id
  have hsubs := (h.subscriptions_eq id).symm.trans (h'.subscriptions_eq id)
  have hevents := (h.events_eq id).symm.trans (h'.events_eq id)
  have hexpires := (h.expiresAt_eq id).symm.trans (h'.expiresAt_eq id)
  cases hf : f id with
  | none =>
    rw [hf] at hsubs
    exact (Option.map_eq_none_iff.1 hsubs.symm).symm
  | some slot =>
    cases hf' : f' id with
    | none =>
      rw [hf, hf'] at hsubs
      cases hsubs
    | some slot' =>
      rw [hf, hf', Option.map_some, Option.map_some, Option.some.injEq] at hsubs hevents hexpires
      cases slot
      cases slot'
      simp only at hsubs hevents hexpires
      rw [hsubs, hevents, hexpires]

theorem drop (h : Represents hub f) (id : String) : Represents (hub.dropLocked id) (Function.update f id none) :=
  ⟨column_erase h.subscriptions_eq id, column_erase h.events_eq id, column_erase h.expiresAt_eq id⟩

theorem drops (h : Represents hub f) (l : List String) :
    Represents (l.foldl Hub.dropLocked hub) fun id => if id ∈ l then none else f id := by
  induction l generalizing hub f with
  | nil => simpa using h
  | cons id l ih =>
    have hrest := ih (h.drop id)
    have hsame : (fun a => if a ∈ l then none else Function.update f id none a) =
        fun a => if a ∈ id :: l then none else f a := by
      funext a
      rw [Function.update_apply]
      by_cases ha : a = id
      · simp [ha]
      · simp [ha]
    rw [hsame] at hrest
    exact hrest

/-- A new slot. -/
theorem put (h : Represents hub f) (id : String) (slot : Slot Time Payload) :
    Represents ⟨hub.subscriptions.insert id slot.subscription, hub.events.insert id slot.queue,
      hub.expiresAt.insert id slot.deadline⟩ (Function.update f id (some slot)) :=
  ⟨column_insert h.subscriptions_eq id slot, column_insert h.events_eq id slot, column_insert h.expiresAt_eq id slot⟩

/-- Another queue. -/
theorem setQueue (h : Represents hub f) (hslot : f id = some slot) (queue : List (Event Payload)) :
    Represents { hub with events := hub.events.insert id queue } (Function.update f id (some { slot with queue })) :=
  ⟨column_same h.subscriptions_eq hslot rfl, column_insert h.events_eq id { slot with queue },
    column_same h.expiresAt_eq hslot rfl⟩

/-- Another deadline. -/
theorem setDeadline (h : Represents hub f) (hslot : f id = some slot) (deadline : Time) :
    Represents { hub with expiresAt := hub.expiresAt.insert id deadline }
      (Function.update f id (some { slot with deadline })) :=
  ⟨column_same h.subscriptions_eq hslot rfl, column_same h.events_eq hslot rfl,
    column_insert h.expiresAt_eq id { slot with deadline }⟩

theorem item_events (h : Represents hub f) (hslot : f id = some slot) : hubItem hub.events id = .ok slot.queue := by
  unfold hubItem item
  rw [h.events_eq, hslot]
  rfl

/-- What is due is dropped from all maps. -/
theorem expire [LinearOrder Time] (h : Represents hub f) (now : Time) :
    Represents (hub.expireLocked now) (Slots.expire now f) := by
  have hdue : ∀ id, id ∈ (hub.expiresAt.toList.filter fun p => p.2 ≤ now).map Prod.fst ↔
      ∃ slot, f id = some slot ∧ slot.deadline ≤ now := by
    intro id
    constructor
    · intro hmem
      obtain ⟨p, hp, rfl⟩ := List.mem_map.1 hmem
      obtain ⟨hin, hle⟩ := List.mem_filter.1 hp
      have hget := Table.mem_toList.1 hin
      rw [h.expiresAt_eq] at hget
      obtain ⟨slot, hslot, hdeadline⟩ := Option.map_eq_some_iff.1 hget
      exact ⟨slot, hslot, hdeadline ▸ of_decide_eq_true hle⟩
    · rintro ⟨slot, hslot, hle⟩
      refine List.mem_map.2 ⟨(id, slot.deadline), List.mem_filter.2 ⟨Table.mem_toList.2 ?_, decide_eq_true hle⟩, rfl⟩
      rw [h.expiresAt_eq, hslot]
      rfl
  have hdrops := h.drops ((hub.expiresAt.toList.filter fun p => p.2 ≤ now).map Prod.fst)
  have hsame : (fun id => if id ∈ (hub.expiresAt.toList.filter fun p => p.2 ≤ now).map Prod.fst then none else f id) =
      Slots.expire now f := by
    funext id
    unfold Slots.expire
    cases hslot : f id with
    | none => simp
    | some slot =>
      by_cases hle : slot.deadline ≤ now
      · rw [if_pos ((hdue id).2 ⟨slot, hslot, hle⟩), Option.filter_some, if_neg (by simpa using hle)]
      · have hkeep : id ∉ (hub.expiresAt.toList.filter fun p => p.2 ≤ now).map Prod.fst := by
          intro hmem
          obtain ⟨slot', hslot', hle'⟩ := (hdue id).1 hmem
          rw [hslot, Option.some.injEq] at hslot'
          exact hle (hslot' ▸ hle')
        rw [if_neg hkeep, Option.filter_some, if_pos (by simpa using hle)]
  rw [hsame] at hdrops
  exact hdrops

end Represents

/-! ## Calls -/

section Calls

variable [LinearOrder Time] [Zero Time] [Add Time] {cfg : HubConfig Time} {now : Time}
  {hub : Hub Time Payload} {f : Slots Time Payload}

/-- An event in the queue of a slot of its topic. -/
def Slot.deliver (cfg : HubConfig Time) (event : Event Payload) (slot : Slot Time Payload) : Slot Time Payload :=
  if slot.subscription.topic = event.topic then
    { slot with queue := Queue.push cfg.maxEventsPerSubscription slot.queue event }
  else slot

/-- **What a call can do**, by its result. -/
inductive Effect (cfg : HubConfig Time) (now : Time) (f : Slots Time Payload) :
    HubCall Payload → Except HubError (HubReply Payload) → Slots Time Payload → Prop
  /-- the arguments are refused -/
  | refused {c : HubCall Payload} {e : HubError} (hpublish : ∀ topic payload, c = .publish topic payload → topic = "") :
      Effect cfg now f c (.error e) f
  /-- there are too many subscriptions -/
  | full {token topic : String} {e : HubError} :
      Effect cfg now f (.subscribe token topic) (.error e) (f.expire now)
  | subscribed {token topic : String} (htopic : topic ≠ "") :
      Effect cfg now f (.subscribe token topic) (.ok (.subscribed ⟨token, topic⟩))
        (Function.update (f.expire now) token (some ⟨⟨token, topic⟩, [], now + cfg.ttlSeconds⟩))
  | published {topic : String} {payload : Payload} {n : ℕ} :
      Effect cfg now f (.publish topic payload) (.ok (.delivered n))
        fun id => (f.expire now id).map (Slot.deliver cfg ⟨topic, payload⟩)
  /-- the id is not there -/
  | unknown {c : HubCall Payload} (hpublish : ∀ topic payload, c ≠ .publish topic payload) :
      Effect cfg now f c (.error unknownSubscription) (f.expire now)
  | drained {id : String} {limit : ℤ} {slot : Slot Time Payload} (n : ℕ) (hslot : f.expire now id = some slot) :
      Effect cfg now f (.drain id limit)
        (.ok (.drained slot.subscription.subscriptionId slot.subscription.topic (slot.queue.take n)))
        (Function.update (f.expire now) id
          (some { slot with queue := slot.queue.drop n, deadline := now + cfg.ttlSeconds }))
  | unsubscribed {id : String} {slot : Slot Time Payload} (hslot : f.expire now id = some slot) :
      Effect cfg now f (.unsubscribe id)
        (.ok (.unsubscribed slot.subscription.subscriptionId slot.subscription.topic))
        (Function.update (f.expire now) id none)

omit [Add Time] in
variable (cfg) in
/-- The loop of `publish` over some of the subscriptions. -/
theorem deliverTo_foldlM (event : Event Payload) : ∀ {l : List (String × Subscription)} {hub : Hub Time Payload}
    {f : Slots Time Payload}, Represents hub f → (l.map Prod.fst).Nodup →
      (∀ p ∈ l, ∃ slot, f p.1 = some slot ∧ slot.subscription = p.2) → ∀ n : ℕ, ∃ n' hub',
        (l.foldlM (deliverTo cfg event) n).runOn hub = (.ok n', hub') ∧ hub'.subscriptions = hub.subscriptions ∧
        Represents hub' fun id => if id ∈ l.map Prod.fst then (f id).map (Slot.deliver cfg event) else f id
  | [], hub, f, h, _, _, n => ⟨n, hub, rfl, rfl, by simpa using h⟩
  | p :: l, hub, f, h, hnodup, hall, n => by
    obtain ⟨slot, hslot, hsub⟩ := hall p List.mem_cons_self
    rw [List.map_cons, List.nodup_cons] at hnodup
    obtain ⟨hfresh, hnodup⟩ := hnodup
    -- the queue of the first one changes if the topic is its own
    obtain ⟨n₁, hub₁, hfirst, hsubs, hrep⟩ : ∃ n₁ hub₁, (deliverTo cfg event n p).runOn hub = (.ok n₁, hub₁) ∧
        hub₁.subscriptions = hub.subscriptions ∧
        Represents hub₁ (Function.update f p.1 (some (slot.deliver cfg event))) := by
      unfold deliverTo Slot.deliver
      rw [← hsub]
      by_cases htopic : slot.subscription.topic = event.topic
      · rw [if_neg (not_not.2 htopic), if_pos htopic]
        refine ⟨n + 1, { hub with events := hub.events.insert p.1 (Queue.push cfg.maxEventsPerSubscription slot.queue event) },
          ?_, rfl, h.setQueue hslot _⟩
        rw [Stateful.runOn_bind, Stateful.runOn_get]
        dsimp only
        rw [Stateful.runOn_bind, Stateful.runOn_lift, h.item_events hslot]
        rfl
      · rw [if_pos htopic, if_neg htopic, ← hslot, Function.update_eq_self]
        exact ⟨n, hub, rfl, rfl, h⟩
    -- the others are as they were, since ids do not repeat
    have hrest : ∀ q ∈ l, ∃ slot', Function.update f p.1 (some (slot.deliver cfg event)) q.1 = some slot' ∧
        slot'.subscription = q.2 := by
      intro q hq
      have hne : q.1 ≠ p.1 := fun heq => hfresh (heq ▸ List.mem_map_of_mem hq)
      rw [Function.update_of_ne hne]
      exact hall q (List.mem_cons_of_mem _ hq)
    obtain ⟨n', hub', hloop, hsubs', hrep'⟩ := deliverTo_foldlM event hrep hnodup hrest n₁
    refine ⟨n', hub', ?_, hsubs'.trans hsubs, ?_⟩
    · rw [List.foldlM_cons, Stateful.runOn_bind, hfirst]
      exact hloop
    · -- each slot is reached once: here, or in the rest
      have hsame : (fun id => if id ∈ l.map Prod.fst then
          (Function.update f p.1 (some (slot.deliver cfg event)) id).map (Slot.deliver cfg event)
          else Function.update f p.1 (some (slot.deliver cfg event)) id) =
          fun id => if id ∈ (p :: l).map Prod.fst then (f id).map (Slot.deliver cfg event) else f id := by
        funext id
        have hmem : id ∈ (p :: l).map Prod.fst ↔ id = p.1 ∨ id ∈ l.map Prod.fst := by
          rw [List.map_cons, List.mem_cons]
        by_cases hid : id = p.1
        · subst hid
          rw [if_neg hfresh, if_pos (hmem.2 (.inl rfl)), Function.update_self, hslot]
          rfl
        · rw [Function.update_of_ne hid]
          by_cases hin : id ∈ l.map Prod.fst
          · rw [if_pos hin, if_pos (hmem.2 (.inr hin))]
          · have hout : id ∉ (p :: l).map Prod.fst := by
              intro h
              rcases hmem.1 h with h | h
              · exact hid h
              · exact hin h
            rw [if_neg hin, if_neg hout]
      rw [hsame] at hrep'
      exact hrep'

omit [Zero Time] [Add Time] in
theorem size_expireLocked_le (hub : Hub Time Payload) (now : Time) :
    (hub.expireLocked now).subscriptions.size ≤ hub.subscriptions.size := by
  have hdrop : ∀ (l : List String) (hub : Hub Time Payload),
      (l.foldl Hub.dropLocked hub).subscriptions.size ≤ hub.subscriptions.size := by
    intro l
    induction l with
    | nil => exact fun _ => le_rfl
    | cons id l ih =>
      intro hub
      have hfirst : (hub.dropLocked id).subscriptions.size ≤ hub.subscriptions.size := Std.ExtTreeMap.size_erase_le
      exact (ih (hub.dropLocked id)).trans hfirst
  exact hdrop _ _

theorem requireNonemptyString_cases (name value : String) :
    requireNonemptyString name value = .ok () ∧ value ≠ "" ∨
      ∃ e, requireNonemptyString name value = .error e ∧ value = "" := by
  unfold requireNonemptyString
  by_cases h : value ≠ ""
  · exact .inl ⟨Exn.ensure_of _ h, h⟩
  · exact .inr ⟨_, Exn.ensure_not _ h, not_not.1 h⟩

/-- What a call comes to. -/
structure Performs (cfg : HubConfig Time) (now : Time) (c : HubCall Payload) (hub : Hub Time Payload)
    (f : Slots Time Payload) : Prop where
  effect : ∃ f', Represents ((perform cfg now c).runOn hub).2 f' ∧ Effect cfg now f c ((perform cfg now c).runOn hub).1 f'
  size_le : hub.subscriptions.size ≤ cfg.maxSubscriptions →
    ((perform cfg now c).runOn hub).2.subscriptions.size ≤ cfg.maxSubscriptions

theorem Performs.of_eq {c : HubCall Payload} {r : Except HubError (HubReply Payload)} {hub' : Hub Time Payload}
    {f' : Slots Time Payload} (hrun : (perform cfg now c).runOn hub = (r, hub')) (hrep : Represents hub' f')
    (heffect : Effect cfg now f c r f') (hsize : hub.subscriptions.size ≤ cfg.maxSubscriptions →
      hub'.subscriptions.size ≤ cfg.maxSubscriptions) : Performs cfg now c hub f := by
  refine ⟨⟨f', ?_, ?_⟩, ?_⟩
  · rw [hrun]
    exact hrep
  · rw [hrun]
    exact heffect
  · rw [hrun]
    exact hsize

theorem subscribe_effect (h : Represents hub f) (token topic : String) :
    Performs cfg now (.subscribe token topic) hub f := by
  have hsize := size_expireLocked_le hub now
  have hother : ∀ topic' payload, (HubCall.subscribe token topic : HubCall Payload) ≠ .publish topic' payload := by
    intro topic' payload hc
    cases hc
  have hrun : (perform cfg now (.subscribe token topic)).runOn hub = (Rpc.subscribe cfg now token topic).runOn hub := rfl
  unfold Rpc.subscribe at hrun
  rw [Stateful.runOn_bind, Stateful.runOn_lift] at hrun
  rcases requireNonemptyString_cases "topic" topic with ⟨hok, htopic⟩ | ⟨e, herror, -⟩
  · rw [hok] at hrun
    dsimp only at hrun
    rw [Stateful.runOn_bind, Stateful.runOn_modify] at hrun
    dsimp only at hrun
    rw [Stateful.runOn_bind, Stateful.runOn_get] at hrun
    dsimp only at hrun
    rw [Stateful.runOn_bind, Stateful.runOn_lift] at hrun
    by_cases hroom : (hub.expireLocked now).subscriptions.size < cfg.maxSubscriptions
    · rw [Exn.ensure_of _ hroom] at hrun
      dsimp only at hrun
      rw [Stateful.runOn_bind, Stateful.runOn_set] at hrun
      refine .of_eq hrun ((h.expire now).put token ⟨⟨token, topic⟩, [], now + cfg.ttlSeconds⟩) (.subscribed htopic) ?_
      intro _
      exact Std.ExtTreeMap.size_insert_le.trans hroom
    · rw [Exn.ensure_not _ hroom] at hrun
      exact .of_eq hrun (h.expire now) .full fun hle => hsize.trans hle
  · rw [herror] at hrun
    exact .of_eq hrun h (.refused fun topic' payload hc => absurd hc (hother topic' payload)) fun hle => hle

theorem publish_effect (h : Represents hub f) (topic : String) (payload : Payload) :
    Performs cfg now (.publish topic payload) hub f := by
  have hsize := size_expireLocked_le hub now
  have hexpire := h.expire now
  have hrun : (perform cfg now (.publish topic payload)).runOn hub = (Rpc.publish cfg now topic payload).runOn hub := rfl
  unfold Rpc.publish at hrun
  rw [Stateful.runOn_bind, Stateful.runOn_lift] at hrun
  rcases requireNonemptyString_cases "topic" topic with ⟨hok, -⟩ | ⟨e, herror, hempty⟩
  · have hkeys : ∀ p ∈ (hub.expireLocked now).subscriptions.toList,
        ∃ slot, f.expire now p.1 = some slot ∧ slot.subscription = p.2 := by
      intro p hp
      have hget := Table.mem_toList.1 hp
      rw [hexpire.subscriptions_eq] at hget
      exact Option.map_eq_some_iff.1 hget
    obtain ⟨n, hub', hloop, hsubs, hrep⟩ := deliverTo_foldlM cfg ⟨topic, payload⟩ hexpire
      (Table.nodup_map_fst _) hkeys 0
    -- the loop reaches every slot
    have hsame : (fun id => if id ∈ (hub.expireLocked now).subscriptions.toList.map Prod.fst then
        (f.expire now id).map (Slot.deliver cfg ⟨topic, payload⟩) else f.expire now id) =
        fun id => (f.expire now id).map (Slot.deliver cfg ⟨topic, payload⟩) := by
      funext id
      split
      · rfl
      · rename_i hout
        cases hslot : f.expire now id with
        | none => rfl
        | some slot =>
          refine absurd (List.mem_map.2 ⟨(id, slot.subscription), Table.mem_toList.2 ?_, rfl⟩) hout
          rw [hexpire.subscriptions_eq, hslot]
          rfl
    rw [hsame] at hrep
    rw [hok] at hrun
    dsimp only at hrun
    rw [Stateful.runOn_bind, Stateful.runOn_modify] at hrun
    dsimp only at hrun
    rw [Stateful.runOn_bind, Stateful.runOn_get] at hrun
    dsimp only at hrun
    rw [Stateful.runOn_bind, hloop] at hrun
    refine .of_eq hrun hrep .published fun hle => ?_
    rw [hsubs]
    exact hsize.trans hle
  · rw [herror] at hrun
    refine .of_eq hrun h (.refused ?_) id
    intro topic' payload' hc
    cases hc
    exact hempty

theorem drain_effect (h : Represents hub f) (id : String) (limit : ℤ) : Performs cfg now (.drain id limit) hub f := by
  have hsize := size_expireLocked_le hub now
  have hexpire := h.expire now
  have hother : ∀ topic payload, (HubCall.drain id limit : HubCall Payload) ≠ .publish topic payload := by
    intro topic payload hc
    cases hc
  have hrun : (perform cfg now (.drain id limit)).runOn hub = (Rpc.drain cfg now id limit).runOn hub := rfl
  unfold Rpc.drain at hrun
  rw [Stateful.runOn_bind, Stateful.runOn_lift] at hrun
  rcases requireNonemptyString_cases "subscription_id" id with ⟨hok, -⟩ | ⟨e, herror, -⟩
  · rw [hok] at hrun
    dsimp only at hrun
    rw [Stateful.runOn_bind, Stateful.runOn_lift] at hrun
    cases hlimit : requireEventLimit limit with
    | error e =>
      rw [hlimit] at hrun
      exact .of_eq hrun h (.refused fun topic payload hc => absurd hc (hother topic payload)) fun hle => hle
    | ok n =>
      rw [hlimit] at hrun
      dsimp only at hrun
      rw [Stateful.runOn_bind, Stateful.runOn_modify] at hrun
      dsimp only at hrun
      rw [Stateful.runOn_bind, Stateful.runOn_get] at hrun
      dsimp only at hrun
      rw [Stateful.runOn_bind, Stateful.runOn_lift, hexpire.subscriptions_eq] at hrun
      -- whether the subscription is there is asked after what is due has been dropped
      cases hslot : f.expire now id with
      | none =>
        rw [hslot] at hrun
        exact .of_eq hrun hexpire (.unknown hother) fun hle => hsize.trans hle
      | some slot =>
        rw [hslot, Option.map_some, Exn.get_some] at hrun
        dsimp only at hrun
        rw [Stateful.runOn_bind, Stateful.runOn_set] at hrun
        dsimp only at hrun
        rw [Stateful.runOn_bind, Stateful.runOn_lift, hexpire.item_events hslot] at hrun
        dsimp only at hrun
        rw [Stateful.runOn_bind, Stateful.runOn_modify] at hrun
        have hrep := (hexpire.setDeadline hslot (now + cfg.ttlSeconds)).setQueue (Function.update_self ..)
          (slot.queue.drop n)
        rw [Function.update_idem] at hrep
        exact .of_eq hrun hrep (.drained n hslot) fun hle => hsize.trans hle
  · rw [herror] at hrun
    exact .of_eq hrun h (.refused fun topic payload hc => absurd hc (hother topic payload)) fun hle => hle

theorem unsubscribe_effect (h : Represents hub f) (id : String) : Performs cfg now (.unsubscribe id) hub f := by
  have hsize := size_expireLocked_le hub now
  have hexpire := h.expire now
  have hother : ∀ topic payload, (HubCall.unsubscribe id : HubCall Payload) ≠ .publish topic payload := by
    intro topic payload hc
    cases hc
  have hrun : (perform cfg now (.unsubscribe id)).runOn hub = (Rpc.unsubscribe now id).runOn hub := rfl
  unfold Rpc.unsubscribe at hrun
  rw [Stateful.runOn_bind, Stateful.runOn_lift] at hrun
  rcases requireNonemptyString_cases "subscription_id" id with ⟨hok, -⟩ | ⟨e, herror, -⟩
  · rw [hok] at hrun
    dsimp only at hrun
    rw [Stateful.runOn_bind, Stateful.runOn_modify] at hrun
    dsimp only at hrun
    rw [Stateful.runOn_bind, Stateful.runOn_get] at hrun
    dsimp only at hrun
    rw [Stateful.runOn_bind, Stateful.runOn_lift, hexpire.subscriptions_eq] at hrun
    cases hslot : f.expire now id with
    | none =>
      rw [hslot] at hrun
      exact .of_eq hrun hexpire (.unknown hother) fun hle => hsize.trans hle
    | some slot =>
      rw [hslot, Option.map_some, Exn.get_some] at hrun
      dsimp only at hrun
      rw [Stateful.runOn_bind, Stateful.runOn_set] at hrun
      refine .of_eq hrun (hexpire.drop id) (.unsubscribed hslot) fun hle => ?_
      exact (Std.ExtTreeMap.size_erase_le.trans hsize).trans hle
  · rw [herror] at hrun
    exact .of_eq hrun h (.refused fun topic payload hc => absurd hc (hother topic payload)) fun hle => hle

/-- **What a call comes to**, whatever the call. -/
theorem perform_effect (h : Represents hub f) (c : HubCall Payload) : Performs cfg now c hub f := by
  cases c with
  | subscribe token topic => exact subscribe_effect h token topic
  | publish topic payload => exact publish_effect h topic payload
  | drain id limit => exact drain_effect h id limit
  | unsubscribe id => exact unsubscribe_effect h id

end Calls

/-! ## Sessions -/

section Sessions

variable [LinearOrder Time] [Zero Time] [Add Time] {cfg : HubConfig Time}

/-- A slot that a call in the log has made, and whose queue keeps accounts with what was
published on its topic and drained from it since. -/
structure Live (cfg : HubConfig Time) (log : List (HubLogEntry Time Payload)) (id : String)
    (slot : Slot Time Payload) : Prop where
  id_eq : slot.subscription.subscriptionId = id
  topic_ne : slot.subscription.topic ≠ ""
  since : ∃ t before after,
    log = before ++ ⟨t, .subscribe id slot.subscription.topic, .ok (.subscribed slot.subscription)⟩ :: after ∧
      Queue.Account cfg.maxEventsPerSubscription (after.flatMap (HubLogEntry.published slot.subscription.topic))
        (after.flatMap (HubLogEntry.drained id)) slot.queue

variable {log : List (HubLogEntry Time Payload)} {id : String} {slot : Slot Time Payload}
  {entry : HubLogEntry Time Payload}

omit [Add Time] in
/-- A call that moves the accounts of a slot. -/
theorem Live.move (h : Live cfg log id slot) (entry : HubLogEntry Time Payload) {slot' : Slot Time Payload}
    (hsub : slot'.subscription = slot.subscription)
    (haccount : ∀ {published drained}, Queue.Account cfg.maxEventsPerSubscription published drained slot.queue →
      Queue.Account cfg.maxEventsPerSubscription (published ++ entry.published slot.subscription.topic)
        (drained ++ entry.drained id) slot'.queue) : Live cfg (log ++ [entry]) id slot' := by
  obtain ⟨t, before, after, hlog, hold⟩ := h.since
  refine ⟨by rw [hsub]; exact h.id_eq, by rw [hsub]; exact h.topic_ne, t, before, after ++ [entry], ?_, ?_⟩
  · rw [hlog, hsub, List.append_assoc, List.cons_append]
  · rw [hsub, List.flatMap_append, List.flatMap_append, List.flatMap_singleton, List.flatMap_singleton]
    exact haccount hold

omit [Add Time] in
/-- A call that has nothing to do with a slot. -/
theorem Live.keep (h : Live cfg log id slot) (hpublished : entry.published slot.subscription.topic = [])
    (hdrained : entry.drained id = []) : Live cfg (log ++ [entry]) id slot := by
  refine h.move entry rfl fun hold => ?_
  rw [hpublished, hdrained, List.append_nil, List.append_nil]
  exact hold

omit [Zero Time] [Add Time] in
/-- What is not due is still there. -/
theorem of_expire {f : Slots Time Payload} {now : Time} (h : f.expire now id = some slot) : f id = some slot :=
  (Option.filter_eq_some_iff.1 h).1

omit [Zero Time] [Add Time] in
/-- What is due is gone. -/
theorem expire_due {f : Slots Time Payload} {now : Time} (h : f id = none ∨ ∃ slot, f id = some slot ∧ slot.deadline ≤ now) :
    f.expire now id = none := by
  unfold Slots.expire
  rcases h with h | ⟨slot, hslot, hle⟩
  · rw [h]
    rfl
  · rw [hslot, Option.filter_some, if_neg (by simpa using hle)]

/-- **A call keeps every slot in accounts with the log.** -/
theorem effect_live {f f' : Slots Time Payload} {now : Time} {c : HubCall Payload}
    {r : Except HubError (HubReply Payload)} (hall : ∀ id slot, f id = some slot → Live cfg log id slot)
    (heffect : Effect cfg now f c r f') (id : String) (slot : Slot Time Payload) (hslot : f' id = some slot) :
    Live cfg (log ++ [⟨now, c, r⟩]) id slot := by
  cases heffect with
  | refused hpublish =>
    have hlive := hall id slot hslot
    refine hlive.keep ?_ rfl
    -- a topic that is refused is nobody's topic
    cases c with
    | publish topic payload =>
      have hempty := hpublish topic payload rfl
      refine if_neg fun heq => hlive.topic_ne ?_
      rw [← heq, hempty]
    | subscribe _ _ => rfl
    | drain _ _ => rfl
    | unsubscribe _ => rfl
  | full => exact (hall id slot (of_expire hslot)).keep rfl rfl
  | @subscribed token topic htopic =>
    by_cases hid : id = token
    · subst hid
      rw [Function.update_self, Option.some.injEq] at hslot
      subst hslot
      exact ⟨rfl, htopic, now, log, [], rfl, .start⟩
    · rw [Function.update_of_ne hid] at hslot
      exact (hall id slot (of_expire hslot)).keep rfl rfl
  | @published topic payload n =>
    obtain ⟨old, hold, rfl⟩ := Option.map_eq_some_iff.1 hslot
    have hlive := hall id old (of_expire hold)
    unfold Slot.deliver
    by_cases htopic : old.subscription.topic = topic
    · have hentry : HubLogEntry.published old.subscription.topic
          (⟨now, .publish topic payload, .ok (.delivered n)⟩ : HubLogEntry Time Payload) = [⟨topic, payload⟩] :=
        if_pos htopic.symm
      rw [if_pos htopic]
      refine hlive.move _ rfl fun hold => ?_
      rw [hentry, show HubLogEntry.drained id (⟨now, .publish topic payload, .ok (.delivered n)⟩ :
        HubLogEntry Time Payload) = [] from rfl, List.append_nil]
      exact hold.push cfg.maxEvents_pos _
    · -- another topic: neither the queue nor its accounts move
      rw [if_neg htopic]
      exact hlive.keep (if_neg (Ne.symm htopic)) rfl
  | unknown hpublish =>
    refine (hall id slot (of_expire hslot)).keep ?_ rfl
    cases c with
    | publish topic payload => exact absurd rfl (hpublish topic payload)
    | subscribe _ _ => rfl
    | drain _ _ => rfl
    | unsubscribe _ => rfl
  | @drained id' limit old n hold =>
    -- `drain` answers with the subscription it found, so the events are those of its id
    have howner := (hall id' old (of_expire hold)).id_eq
    by_cases hid : id = id'
    · subst hid
      rw [Function.update_self, Option.some.injEq] at hslot
      subst hslot
      have hentry : HubLogEntry.drained id (⟨now, .drain id limit, .ok (.drained old.subscription.subscriptionId
          old.subscription.topic (old.queue.take n))⟩ : HubLogEntry Time Payload) = old.queue.take n := if_pos howner
      refine (hall id old (of_expire hold)).move _ rfl fun hold => ?_
      rw [hentry, show HubLogEntry.published old.subscription.topic (⟨now, .drain id limit, .ok (.drained
        old.subscription.subscriptionId old.subscription.topic (old.queue.take n))⟩ : HubLogEntry Time Payload) = []
        from rfl, List.append_nil]
      exact hold.take_drop n
    · rw [Function.update_of_ne hid] at hslot
      refine (hall id slot (of_expire hslot)).keep rfl (if_neg ?_)
      rw [howner]
      exact Ne.symm hid
  | @unsubscribed id' old hold =>
    by_cases hid : id = id'
    · subst hid
      rw [Function.update_self] at hslot
      cases hslot
    · rw [Function.update_of_ne hid] at hslot
      exact (hall id slot (of_expire hslot)).keep rfl rfl

/-- **The invariant of a session.** -/
structure SessionOk (cfg : HubConfig Time) (s : HubSession Time Payload) : Prop where
  slots : ∃ f, Represents s.hub f ∧ ∀ id slot, f id = some slot → Live cfg s.log id slot
  size_le : s.hub.subscriptions.size ≤ cfg.maxSubscriptions

variable {s s' : HubSession Time Payload}

omit [Add Time] in
theorem SessionOk.init : SessionOk cfg (HubSession.init : HubSession Time Payload) where
  slots := ⟨fun _ => none, Represents.init, fun id slot h => by cases h⟩
  size_le := Nat.zero_le _

theorem SessionOk.call (h : SessionOk cfg s) (now : Time) (c : HubCall Payload) : SessionOk cfg (s.call cfg now c) := by
  obtain ⟨f, hrep, hlive⟩ := h.slots
  have hperform : Performs cfg now c s.hub f := perform_effect hrep c
  obtain ⟨f', hrep', heffect⟩ := hperform.effect
  exact ⟨⟨f', hrep', effect_live hlive heffect⟩, hperform.size_le h.size_le⟩

theorem SessionOk.run (h : SessionOk cfg s) (hrun : ReflTransGen (HubSession.Step cfg) s s') : SessionOk cfg s' := by
  induction hrun with
  | refl => exact h
  | tail _ hstep ih =>
    obtain ⟨now, c, rfl, -⟩ := hstep.of_call
    exact ih.call now c

/-! ## Ids that are gone -/

/-- A call that returned no event of an id, and refused to be about it. -/
def HubLogEntry.Ignores (id : String) (entry : HubLogEntry Time Payload) : Prop :=
  entry.drained id = [] ∧
    ((∃ limit, entry.call = .drain id limit) ∨ entry.call = .unsubscribe id → ∃ e, entry.result = .error e)

/-- A call does not bring back an id that is gone or due. -/
theorem effect_gone {f f' : Slots Time Payload} {now : Time} {c : HubCall Payload}
    {r : Except HubError (HubReply Payload)} (hlive : ∀ id slot, f id = some slot → Live cfg log id slot)
    (heffect : Effect cfg now f c r f') (hdue : f id = none ∨ ∃ slot, f id = some slot ∧ slot.deadline ≤ now)
    (hfresh : ∀ topic, c ≠ .subscribe id topic) :
    (f' id = none ∨ f' id = f id) ∧ HubLogEntry.Ignores id (⟨now, c, r⟩ : HubLogEntry Time Payload) := by
  have hgone := expire_due hdue
  cases heffect with
  | refused => exact ⟨.inr rfl, rfl, fun _ => ⟨_, rfl⟩⟩
  | full => exact ⟨.inl hgone, rfl, fun _ => ⟨_, rfl⟩⟩
  | @subscribed token topic =>
    -- a new subscription takes another id
    have hne : id ≠ token := by
      intro heq
      exact hfresh topic (by rw [heq])
    refine ⟨.inl ?_, rfl, ?_⟩
    · rw [Function.update_of_ne hne]
      exact hgone
    · rintro (⟨limit, hc⟩ | hc) <;> cases hc
  | published =>
    refine ⟨.inl (Option.map_eq_none_iff.2 hgone), rfl, ?_⟩
    · rintro (⟨limit, hc⟩ | hc) <;> cases hc
  | unknown => exact ⟨.inl hgone, rfl, fun _ => ⟨_, rfl⟩⟩
  | @drained id' limit slot n hslot =>
    have hne : id ≠ id' := by
      intro heq
      rw [← heq, hgone] at hslot
      cases hslot
    have howner := (hlive id' slot (of_expire hslot)).id_eq
    refine ⟨.inl ?_, if_neg ?_, ?_⟩
    · rw [Function.update_of_ne hne]
      exact hgone
    · rw [howner]
      exact Ne.symm hne
    · rintro (⟨limit', hc⟩ | hc)
      · cases hc
        exact absurd rfl hne
      · cases hc
  | @unsubscribed id' slot hslot =>
    have hne : id ≠ id' := by
      intro heq
      rw [← heq, hgone] at hslot
      cases hslot
    refine ⟨.inl ?_, rfl, ?_⟩
    · rw [Function.update_of_ne hne]
      exact hgone
    · rintro (⟨limit', hc⟩ | hc)
      · cases hc
      · cases hc
        exact absurd rfl hne

theorem HubSession.Used.call (h : s.Used id) (now : Time) (c : HubCall Payload) : (s.call cfg now c).Used id := by
  obtain ⟨entry, hmem, hcall⟩ := h
  exact ⟨entry, List.mem_append_left _ hmem, hcall⟩

/-- **An id that is gone stays gone.** Neither do later calls return its events. -/
theorem gone_run {f : Slots Time Payload} {t : Time} (hok : SessionOk cfg s) (hrep : Represents s.hub f)
    (hused : s.Used id) (hdue : f id = none ∨ ∃ slot, f id = some slot ∧ slot.deadline ≤ t)
    (hrun : ReflTransGen (HubSession.Step cfg) s s') (hlater : ∀ entry ∈ s'.log.drop s.log.length, t ≤ entry.now) :
    s'.Used id ∧ s.log.length ≤ s'.log.length ∧ (∃ f', Represents s'.hub f' ∧ (f' id = none ∨ f' id = f id)) ∧
      ∀ entry ∈ s'.log.drop s.log.length, entry.Ignores id := by
  induction hrun with
  | refl =>
    refine ⟨hused, le_rfl, ⟨f, hrep, .inr rfl⟩, ?_⟩
    intro entry hentry
    rw [List.drop_length] at hentry
    cases hentry
  | @tail s₁ s₂ hrun₁ hstep ih =>
    obtain ⟨now, c, rfl, -, hfresh⟩ := hstep.of_call
    have hlen : s.log.length ≤ s₁.log.length := by
      clear ih hlater hstep hfresh
      induction hrun₁ with
      | refl => exact le_rfl
      | tail _ hstep ih =>
        obtain ⟨now, c, rfl, -⟩ := hstep.of_call
        refine ih.trans ?_
        show _ ≤ (_ ++ [_]).length
        rw [List.length_append]
        omega
    have hdrop : ∀ entry : HubLogEntry Time Payload, (s₁.log ++ [entry]).drop s.log.length =
        s₁.log.drop s.log.length ++ [entry] := fun entry => List.drop_append_of_le_length hlen
    have hlog : (s₁.call cfg now c).log = s₁.log ++ [⟨now, c, ((perform cfg now c).runOn s₁.hub).1⟩] := rfl
    rw [hlog, hdrop] at hlater
    obtain ⟨hused₁, -, ⟨f₁, hrep₁, hgone₁⟩, hignores⟩ := ih fun entry hentry => hlater entry (List.mem_append_left _ hentry)
    have hnow : t ≤ now := hlater _ (List.mem_append_right _ List.mem_cons_self)
    have hperform : Performs cfg now c s₁.hub f₁ := perform_effect hrep₁ c
    obtain ⟨f', hrep', heffect⟩ := hperform.effect
    obtain ⟨f₁', hrep₁', hlive⟩ := (hok.run hrun₁).slots
    obtain rfl := hrep₁.unique hrep₁'
    -- time does not run back, so what was due then is due now
    have hdue₁ : f₁ id = none ∨ ∃ slot, f₁ id = some slot ∧ slot.deadline ≤ now := by
      rcases hgone₁ with hnone | hsame
      · exact .inl hnone
      · rcases hdue with hnone | ⟨slot, hslot, hle⟩
        · exact .inl (hsame.trans hnone)
        · exact .inr ⟨slot, hsame.trans hslot, hle.trans hnow⟩
    obtain ⟨hgone', hignore⟩ := effect_gone hlive heffect hdue₁ fun topic hc => hfresh id topic hc hused₁
    refine ⟨hused₁.call now c, ?_, ⟨f', hrep', ?_⟩, ?_⟩
    · rw [hlog, List.length_append]
      omega
    · rcases hgone' with hnone | hsame
      · exact .inl hnone
      · rcases hgone₁ with hnone₁ | hsame₁
        · exact .inl (hsame.trans hnone₁)
        · exact .inr (hsame.trans hsame₁)
    · rw [hlog, hdrop]
      intro entry hentry
      rcases List.mem_append.1 hentry with hold | hnew
      · exact hignores entry hold
      · rw [List.mem_singleton.1 hnew]
        exact hignore

/-- An id that was dropped is gone, and was made before. -/
theorem dropped_run {now : Time} {reply : HubReply Payload} (h : ReflTransGen (HubSession.Step cfg) HubSession.init s)
    (hmem : (⟨now, .unsubscribe id, .ok reply⟩ : HubLogEntry Time Payload) ∈ s.log) :
    s.Used id ∧ ∃ f, Represents s.hub f ∧ f id = none := by
  induction h with
  | refl => cases hmem
  | @tail s₁ s₂ hrun hstep ih =>
    obtain ⟨t, c, rfl, -, hfresh⟩ := hstep.of_call
    obtain ⟨f, hrep, hlive⟩ := (SessionOk.init.run hrun).slots
    have hperform : Performs cfg t c s₁.hub f := perform_effect hrep c
    obtain ⟨f', hrep', heffect⟩ := hperform.effect
    rcases List.mem_append.1 hmem with hold | hnew
    · obtain ⟨hused, f₁, hrep₁, hnone⟩ := ih hold
      obtain rfl := hrep.unique hrep₁
      obtain ⟨hgone, -⟩ := effect_gone hlive heffect (.inl hnone) fun topic hc => hfresh id topic hc hused
      refine ⟨hused.call t c, f', hrep', ?_⟩
      rcases hgone with hgone | hsame
      · exact hgone
      · rw [hsame, hnone]
    · -- the call that drops it
      rw [List.mem_singleton, HubLogEntry.mk.injEq] at hnew
      obtain ⟨rfl, rfl, hresult⟩ := hnew
      rw [← hresult] at heffect
      cases heffect with
      | @unsubscribed _ slot hslot =>
        obtain ⟨t, before, after, hlog, -⟩ := (hlive id slot (of_expire hslot)).since
        have hused : s₁.Used id := ⟨_, by rw [hlog]; exact List.mem_append_right _ List.mem_cons_self, _, rfl⟩
        exact ⟨hused.call now _, _, hrep', Function.update_self _ _ _⟩

/-- **The subscription hub**, over every session. The three maps have the same keys, there are
not too many, and the queue of every subscription keeps accounts with what was published on its
topic and drained from it since it was made: what was published is what was drained or lost,
followed by what is pending, and behind every lost event there came as many as a queue holds.
An id that was dropped is in none of the maps, and one that is in none of them, or whose deadline
is over, gets nothing more and returns nothing. -/
theorem hub_delivers (h : ReflTransGen (HubSession.Step cfg) HubSession.init s) :
    (∀ id : String, (id ∈ s.hub.subscriptions ↔ id ∈ s.hub.events) ∧
      (id ∈ s.hub.subscriptions ↔ id ∈ s.hub.expiresAt)) ∧
    s.hub.subscriptions.size ≤ cfg.maxSubscriptions ∧
    (∀ (id : String) (sub : Subscription), s.hub.subscriptions[id]? = some sub → ∃ t before after queue,
      s.log = before ++ ⟨t, .subscribe id sub.topic, .ok (.subscribed sub)⟩ :: after ∧
      s.hub.events[id]? = some queue ∧
      Queue.Account cfg.maxEventsPerSubscription (after.flatMap (HubLogEntry.published sub.topic))
        (after.flatMap (HubLogEntry.drained id)) queue ∧
      ∃ settled : List (Event Payload × Bool),
        after.flatMap (HubLogEntry.published sub.topic) = settled.map Prod.fst ++ queue ∧
        after.flatMap (HubLogEntry.drained id) = (settled.filter Prod.snd).map Prod.fst ∧
        ∀ older lost newer, settled = older ++ (lost, false) :: newer →
          cfg.maxEventsPerSubscription ≤ newer.length + queue.length) ∧
    (∀ (id : String) (t : Time) (reply : HubReply Payload), ⟨t, .unsubscribe id, .ok reply⟩ ∈ s.log →
      s.Used id ∧ s.hub.subscriptions[id]? = none ∧ s.hub.events[id]? = none ∧ s.hub.expiresAt[id]? = none) ∧
    ∀ (id : String) (t : Time), s.Used id →
      (s.hub.subscriptions[id]? = none ∨ ∃ deadline, s.hub.expiresAt[id]? = some deadline ∧ deadline ≤ t) →
      ∀ s', ReflTransGen (HubSession.Step cfg) s s' → (∀ entry ∈ s'.log.drop s.log.length, t ≤ entry.now) →
        (s'.hub.events[id]? = none ∨ s'.hub.events[id]? = s.hub.events[id]?) ∧
        ∀ entry ∈ s'.log.drop s.log.length, entry.drained id = [] ∧
          ((∃ limit, entry.call = .drain id limit) ∨ entry.call = .unsubscribe id → ∃ e, entry.result = .error e) := by
  have hok := SessionOk.init.run h
  obtain ⟨f, hrep, hlive⟩ := hok.slots
  refine ⟨fun id => ?_, hok.size_le, fun id sub hsub => ?_, fun id t reply hmem => ?_,
    fun id t hused hdue s' hrun hlater => ?_⟩
  · simp only [Std.ExtTreeMap.mem_iff_isSome_getElem?, hrep.subscriptions_eq, hrep.events_eq, hrep.expiresAt_eq,
      Option.isSome_map, and_self]
  · rw [hrep.subscriptions_eq] at hsub
    obtain ⟨slot, hslot, rfl⟩ := Option.map_eq_some_iff.1 hsub
    obtain ⟨t, before, after, hlog, haccount⟩ := (hlive id slot hslot).since
    refine ⟨t, before, after, slot.queue, hlog, ?_, haccount, haccount.history⟩
    rw [hrep.events_eq, hslot]
    rfl
  · obtain ⟨hused, f', hrep', hnone⟩ := dropped_run h hmem
    rw [hrep'.subscriptions_eq, hrep'.events_eq, hrep'.expiresAt_eq, hnone]
    exact ⟨hused, rfl, rfl, rfl⟩
  · have hdue' : f id = none ∨ ∃ slot, f id = some slot ∧ slot.deadline ≤ t := by
      rcases hdue with hnone | ⟨deadline, hget, hle⟩
      · rw [hrep.subscriptions_eq] at hnone
        exact .inl (Option.map_eq_none_iff.1 hnone)
      · rw [hrep.expiresAt_eq] at hget
        obtain ⟨slot, hslot, rfl⟩ := Option.map_eq_some_iff.1 hget
        exact .inr ⟨slot, hslot, hle⟩
    obtain ⟨-, -, ⟨f', hrep', hgone⟩, hignores⟩ := gone_run hok hrep hused hdue' hrun hlater
    refine ⟨?_, hignores⟩
    rw [hrep'.events_eq, hrep.events_eq]
    rcases hgone with hnone | hsame
    · rw [hnone]
      exact .inl rfl
    · rw [hsame]
      exact .inr rfl

end Sessions

theorem smallTtl_pos : (0 : ℕ) < 10 := by decide

/-- A hub for two subscriptions with one event each. -/
def smallHub : HubConfig ℕ := ⟨2, 1, 10, Nat.zero_lt_two, Nat.zero_lt_one, smallTtl_pos⟩

/-- The session of some calls. -/
def sessionOf (cfg : HubConfig ℕ) (calls : List (ℕ × HubCall ℕ)) : HubSession ℕ ℕ :=
  calls.foldl (fun s call => s.call cfg call.1 call.2) .init

/-- A subscription, two events on its topic and a drain; then a second subscription, an event for
both, and the first one is dropped. -/
def smallCalls : List (ℕ × HubCall ℕ) :=
  [(0, .subscribe "a" "t"), (1, .publish "t" 7), (1, .publish "t" 8), (3, .drain "a" 5), (4, .subscribe "b" "t"),
    (5, .publish "t" 9), (6, .unsubscribe "a")]

/-- Calls at times that do not go back, with tokens that are new, are a session. -/
theorem sessionOf_runs {cfg : HubConfig ℕ} {calls : List (ℕ × HubCall ℕ)} (htimes : calls.Pairwise fun a b => a.1 ≤ b.1)
    (hfresh : (calls.filterMap fun call => match call.2 with
      | .subscribe token _ => some token
      | _ => none).Nodup) : ReflTransGen (HubSession.Step cfg) .init (sessionOf cfg calls) ∧
      (sessionOf cfg calls).log.map (fun entry => (entry.now, entry.call)) = calls := by
  induction calls using List.reverseRecOn with
  | nil => exact ⟨.refl, rfl⟩
  | append_singleton calls call ih =>
    rw [List.pairwise_append] at htimes
    rw [List.filterMap_append, List.nodup_append] at hfresh
    obtain ⟨hrun, hlog⟩ := ih htimes.1 hfresh.1
    have hsnoc : sessionOf cfg (calls ++ [call]) = (sessionOf cfg calls).call cfg call.1 call.2 := List.foldl_concat ..
    rw [hsnoc]
    constructor
    · refine hrun.tail ⟨call.1, call.2, rfl, fun entry hentry => ?_, fun token topic hcall hused => ?_⟩
      · have hmem : (entry.now, entry.call) ∈ calls := hlog ▸ List.mem_map_of_mem hentry
        exact htimes.2.2 _ hmem call (List.mem_singleton_self _)
      · -- the token would come twice
        obtain ⟨entry, hentry, topic', hold⟩ := hused
        have hmem : (entry.now, entry.call) ∈ calls := hlog ▸ List.mem_map_of_mem hentry
        refine hfresh.2.2 token (List.mem_filterMap.2 ⟨_, hmem, by rw [hold]⟩) token ?_ rfl
        exact List.mem_filterMap.2 ⟨call, List.mem_singleton_self _, by rw [hcall]⟩
    · show (_ ++ [_]).map _ = _
      rw [List.map_append, hlog]
      rfl

theorem smallSession_runs : ReflTransGen (HubSession.Step smallHub) .init (sessionOf smallHub smallCalls) :=
  (sessionOf_runs (by decide) (by decide)).1

theorem hub_delivers_small :
    (∀ id : String, id ∈ (sessionOf smallHub smallCalls).hub.subscriptions ↔
      id ∈ (sessionOf smallHub smallCalls).hub.events) ∧
    (sessionOf smallHub smallCalls).hub.subscriptions.size ≤ 2 ∧
    (sessionOf smallHub smallCalls).hub.subscriptions["a"]? = none ∧
    ∃ t before after queue, (sessionOf smallHub smallCalls).log =
        before ++ ⟨t, .subscribe "b" "t", .ok (.subscribed ⟨"b", "t"⟩)⟩ :: after ∧
      (sessionOf smallHub smallCalls).hub.events["b"]? = some queue ∧
      Queue.Account 1 (after.flatMap (HubLogEntry.published "t")) (after.flatMap (HubLogEntry.drained "b")) queue := by
  obtain ⟨hkeys, hsize, hlive, hdropped, -⟩ := hub_delivers smallSession_runs
  have hlast : (sessionOf smallHub smallCalls).log[6]? = some ⟨6, .unsubscribe "a", .ok (.unsubscribed "a" "t")⟩ := by
    decide +kernel
  obtain ⟨t, before, after, queue, hlog, hqueue, haccount, -⟩ := hlive "b" ⟨"b", "t"⟩ (by decide +kernel)
  exact ⟨fun id => (hkeys id).1, hsize, (hdropped "a" 6 _ (List.mem_of_getElem? hlast)).2.1, t, before, after, queue,
    hlog, hqueue, haccount⟩

end Rpc

end TensorPow
