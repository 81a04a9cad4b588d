import TensorPow.Exn.State
import TensorPow.Queue.Bounded
import TensorPow.Spec.Basic

/-!
# The subscription hub

`SubscriptionHub` of `rpc/server.py`. Every call takes the lock once, after its arguments are
checked, so that calls of many clients are a sequence of `perform`s. A token of `token_hex` and
the reading of the clock are arguments of a call. Times are of any ordered type with an addition.

* `Hub`: the three maps; `expireLocked`, `dropLocked`.
* `subscribe`, `publish`, `drain`, `unsubscribe`: the calls. What was dropped stays dropped
  when a call raises.
* `HubSession`, `Step`: calls one after another, with the log of what they returned.
-/

namespace TensorPow

open Exn

namespace Rpc

/-! ## State -/

/-- `Subscription`. -/
structure Subscription where
  subscriptionId : String
  topic : String
deriving DecidableEq

/-- An event: its topic and its payload. -/
structure Event (Payload : Type) where
  topic : String
  payload : Payload
deriving DecidableEq

/-- The data of a `JsonRpcError`. -/
inductive RpcErrorData where
  | text (s : String)
  | maxSubscriptions (n : ℕ)
deriving DecidableEq

/-- What a call raises. -/
inductive HubError where
  /-- `JsonRpcError` -/
  | rpc (code : ℤ) (message : String) (data : Option RpcErrorData)
  /-- an exception of another class -/
  | py (e : PyError)
deriving DecidableEq

/-- `INVALID_PARAMS`. -/
def rpcInvalidParams : ℤ := -32602

/-- `MAX_EVENT_DRAIN_LIMIT`. -/
def maxEventDrainLimit : ℕ := 1000

/-- What the hub is made with. -/
structure HubConfig (Time : Type) [LinearOrder Time] [Zero Time] where
  maxSubscriptions : ℕ
  maxEventsPerSubscription : ℕ
  ttlSeconds : Time
  maxSubscriptions_pos : 0 < maxSubscriptions
  maxEvents_pos : 0 < maxEventsPerSubscription
  ttl_pos : 0 < ttlSeconds

/-- `SubscriptionHub`: the maps of the hub. -/
structure Hub (Time Payload : Type) where
  subscriptions : Table String Subscription
  events : Table String (List (Event Payload))
  expiresAt : Table String Time

namespace Hub

variable {Time Payload : Type}

/-- `SubscriptionHub.__init__`. -/
def init : Hub Time Payload := ⟨∅, ∅, ∅⟩

/-- `_drop_locked`. -/
def dropLocked (hub : Hub Time Payload) (subscriptionId : String) : Hub Time Payload :=
  ⟨hub.subscriptions.erase subscriptionId, hub.events.erase subscriptionId, hub.expiresAt.erase subscriptionId⟩

/-- `_expire_locked`. -/
def expireLocked [LinearOrder Time] (now : Time) (hub : Hub Time Payload) : Hub Time Payload :=
  let expired := (hub.expiresAt.toList.filter fun p => p.2 ≤ now).map Prod.fst
  expired.foldl dropLocked hub

end Hub

/-! ## Calls -/

/-- `_require_nonempty_string`. -/
def requireNonemptyString (name value : String) : Except HubError Unit :=
  Exn.ensure (value ≠ "") (.rpc rpcInvalidParams "Invalid params" (some (.text (name ++ " must be a non-empty string"))))

/-- `_require_event_limit`. -/
def requireEventLimit (value : ℤ) : Except HubError ℕ := do
  Exn.ensure (0 ≤ value) (.py (.valueError "limit must be nonnegative"))
  Exn.ensure (value ≠ 0) (.py (.valueError "limit must be positive"))
  return min value.toNat maxEventDrainLimit

/-- A key of a dictionary that must be there. -/
def hubItem {V : Type} (t : Table String V) (k : String) : Except HubError V := (item t k).mapError .py

/-- The error of `drain` and `unsubscribe` for an id that is not there. -/
def unknownSubscription : HubError := .rpc rpcInvalidParams "Unknown subscription" none

/-- What a call returns. -/
inductive HubReply (Payload : Type) where
  | subscribed (subscription : Subscription)
  | delivered (n : ℕ)
  | drained (subscriptionId topic : String) (events : List (Event Payload))
  | unsubscribed (subscriptionId topic : String)
deriving DecidableEq

section Calls

variable {Time Payload : Type} [LinearOrder Time] [Zero Time] [Add Time] (cfg : HubConfig Time) (now : Time)

/-- `SubscriptionHub.subscribe`. -/
def subscribe (token topic : String) : Stateful HubError (Hub Time Payload) (HubReply Payload) := do
  Stateful.lift (requireNonemptyString "topic" topic)
  let subscription : Subscription := ⟨token, topic⟩
  modify (Hub.expireLocked now)
  let hub ← get
  Stateful.lift (Exn.ensure (hub.subscriptions.size < cfg.maxSubscriptions)
    (.rpc rpcInvalidParams "Subscription limit reached" (some (.maxSubscriptions cfg.maxSubscriptions))))
  set ({ subscriptions := hub.subscriptions.insert token subscription, events := hub.events.insert token [],
         expiresAt := hub.expiresAt.insert token (now + cfg.ttlSeconds) } : Hub Time Payload)
  return .subscribed subscription

/-- One round of the loop of `publish`. -/
def deliverTo (event : Event Payload) (delivered : ℕ) (p : String × Subscription) :
    Stateful HubError (Hub Time Payload) ℕ := do
  if p.2.topic ≠ event.topic then return delivered
  else
    let hub ← get
    let queue ← Stateful.lift (hubItem hub.events p.1)
    set { hub with events := hub.events.insert p.1 (Queue.push cfg.maxEventsPerSubscription queue event) }
    return delivered + 1

/-- `SubscriptionHub.publish`. -/
def publish (topic : String) (payload : Payload) : Stateful HubError (Hub Time Payload) (HubReply Payload) := do
  Stateful.lift (requireNonemptyString "topic" topic)
  modify (Hub.expireLocked now)
  let hub ← get
  let delivered ← hub.subscriptions.toList.foldlM (deliverTo cfg ⟨topic, payload⟩) 0
  return .delivered delivered

/-- `SubscriptionHub.drain`. -/
def drain (subscriptionId : String) (limit : ℤ) : Stateful HubError (Hub Time Payload) (HubReply Payload) := do
  Stateful.lift (requireNonemptyString "subscription_id" subscriptionId)
  let limit ← Stateful.lift (requireEventLimit limit)
  modify (Hub.expireLocked now)
  let hub ← get
  let subscription ← Stateful.lift (Exn.get hub.subscriptions[subscriptionId]? unknownSubscription)
  set { hub with expiresAt := hub.expiresAt.insert subscriptionId (now + cfg.ttlSeconds) }
  let queue ← Stateful.lift (hubItem hub.events subscriptionId)
  modify fun hub => { hub with events := hub.events.insert subscriptionId (queue.drop limit) }
  return .drained subscription.subscriptionId subscription.topic (queue.take limit)

/-- `SubscriptionHub.unsubscribe`. -/
def unsubscribe (subscriptionId : String) : Stateful HubError (Hub Time Payload) (HubReply Payload) := do
  Stateful.lift (requireNonemptyString "subscription_id" subscriptionId)
  modify (Hub.expireLocked now)
  let hub ← get
  let subscription ← Stateful.lift (Exn.get hub.subscriptions[subscriptionId]? unknownSubscription)
  set (hub.dropLocked subscriptionId)
  return .unsubscribed subscription.subscriptionId subscription.topic

/-- A call. -/
inductive HubCall (Payload : Type) where
  | subscribe (token topic : String)
  | publish (topic : String) (payload : Payload)
  | drain (subscriptionId : String) (limit : ℤ)
  | unsubscribe (subscriptionId : String)
deriving DecidableEq

/-- A call at a time. -/
def perform : HubCall Payload → Stateful HubError (Hub Time Payload) (HubReply Payload)
  | .subscribe token topic => Rpc.subscribe cfg now token topic
  | .publish topic payload => Rpc.publish cfg now topic payload
  | .drain subscriptionId limit => Rpc.drain cfg now subscriptionId limit
  | .unsubscribe subscriptionId => Rpc.unsubscribe now subscriptionId

end Calls

/-! ## Sessions -/

/-- A call and what came of it. -/
structure HubLogEntry (Time Payload : Type) where
  now : Time
  call : HubCall Payload
  result : Except HubError (HubReply Payload)
deriving DecidableEq

/-- The events that a call published on a topic. -/
def HubLogEntry.published {Time Payload : Type} (topic : String) (entry : HubLogEntry Time Payload) :
    List (Event Payload) :=
  match entry.call with
  | .publish t payload => if t = topic then [⟨t, payload⟩] else []
  | _ => []

/-- The events that a call drained from a subscription. -/
def HubLogEntry.drained {Time Payload : Type} (subscriptionId : String) (entry : HubLogEntry Time Payload) :
    List (Event Payload) :=
  match entry.result with
  | .ok (.drained id _ events) => if id = subscriptionId then events else []
  | _ => []

/-- The hub, and the log of the calls so far. -/
structure HubSession (Time Payload : Type) where
  log : List (HubLogEntry Time Payload)
  hub : Hub Time Payload

namespace HubSession

variable {Time Payload : Type}

/-- Before the first call. -/
def init : HubSession Time Payload := ⟨[], .init⟩

/-- A call subscribed with this token. -/
def Used (s : HubSession Time Payload) (token : String) : Prop :=
  ∃ entry ∈ s.log, ∃ topic, entry.call = .subscribe token topic

variable [LinearOrder Time] [Zero Time] [Add Time]

/-- The session after a call. -/
def call (cfg : HubConfig Time) (now : Time) (c : HubCall Payload) (s : HubSession Time Payload) :
    HubSession Time Payload :=
  ⟨s.log ++ [⟨now, c, ((perform cfg now c).runOn s.hub).1⟩], ((perform cfg now c).runOn s.hub).2⟩

/-- Some client makes a call. The clock does not go back, and tokens are fresh. -/
structure Step (cfg : HubConfig Time) (s s' : HubSession Time Payload) : Prop where
  of_call : ∃ now c, s' = s.call cfg now c ∧ (∀ entry ∈ s.log, entry.now ≤ now) ∧
    ∀ token topic, c = .subscribe token topic → ¬s.Used token

end HubSession

end Rpc

end TensorPow
