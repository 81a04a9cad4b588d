import TensorPow.Proof.WebSocket

/-!
# WebSocket sessions

A session depends only on the bytes that arrive and not on their pieces. Whatever arrives, it
keeps the rules of the protocol; what a client that keeps them sends, in whatever fragments,
reaches `handle_json` message by message.

* `serve_congr`, `serve_fuel`: pieces and fuel do not matter.
* `session_orderly`: what a session does on any stream.
* `sentFrames_of_sentBytes`: the client can tell the frames of the server apart.
* `conversation_answered`: what it does for a client that keeps the rules.
-/

namespace TensorPow

namespace WebSocket

open Wire Stream

variable {σ : Type} {handleJson : σ → Bytes → Option Bytes × σ} {max : ℕ}

/-! ## One round of the loop -/

/-- What the loop reads next, by the content of the socket. -/
inductive Reading (max : ℕ) (socket : Socket) : Prop
  | closed (h : (readWebsocketFrame max).run .closed socket = .error .closed)
  | invalid (message : String) (h : (readWebsocketFrame max).run .closed socket = .error (.invalid message))
  | frame (f : WebSocketFrame) (rest : Socket) (h : (readWebsocketFrame max).run .closed socket = .ok (f, rest))

theorem reading (max : ℕ) (socket : Socket) : Reading max socket := by
  rcases h : (readWebsocketFrame max).run .closed socket with (_ | message) | ⟨f, rest⟩
  · exact .closed h
  · exact .invalid message h
  · exact .frame f rest h

theorem serve_closed {fuel : ℕ} {socket : Socket} {s : Fragments} {state : σ}
    (h : (readWebsocketFrame max).run .closed socket = .error .closed) :
    serve handleJson max (fuel + 1) socket s state = ([], state) := by
  unfold serve
  rw [h]

theorem serve_invalid {fuel : ℕ} {socket : Socket} {s : Fragments} {state : σ} {message : String}
    (h : (readWebsocketFrame max).run .closed socket = .error (.invalid message)) :
    serve handleJson max (fuel + 1) socket s state =
      ([.wrote opcodeClose (websocketClosePayload closeProtocolError "protocol error")], state) := by
  unfold serve
  rw [h]

theorem serve_stop {fuel : ℕ} {socket rest : Socket} {s : Fragments} {state : σ} {f : WebSocketFrame} {opcode : ℕ}
    {payload : Bytes} (h : (readWebsocketFrame max).run .closed socket = .ok (f, rest))
    (hf : s.receive max f = .stop opcode payload) :
    serve handleJson max (fuel + 1) socket s state = ([.wrote opcode payload], state) := by
  unfold serve
  rw [h]
  dsimp only
  rw [hf]

theorem serve_next {fuel : ℕ} {socket rest : Socket} {s s' : Fragments} {state : σ} {f : WebSocketFrame}
    {reply : Option (ℕ × Bytes)} (h : (readWebsocketFrame max).run .closed socket = .ok (f, rest))
    (hf : s.receive max f = .next s' reply) :
    serve handleJson max (fuel + 1) socket s state =
      ((reply.map fun r => Effect.wrote r.1 r.2).toList ++ (serve handleJson max fuel rest s' state).1,
        (serve handleJson max fuel rest s' state).2) := by
  rw [serve, h]
  dsimp only
  rw [hf]

theorem serve_message {fuel : ℕ} {socket rest : Socket} {s : Fragments} {state : σ} {f : WebSocketFrame} {payload : Bytes}
    (h : (readWebsocketFrame max).run .closed socket = .ok (f, rest)) (hf : s.receive max f = .message payload) :
    serve handleJson max (fuel + 1) socket s state =
      (.handled payload :: ((handleJson state payload).1.map (Effect.wrote opcodeText)).toList ++
          (serve handleJson max fuel rest .none (handleJson state payload).2).1,
        (serve handleJson max fuel rest .none (handleJson state payload).2).2) := by
  rw [serve, h]
  dsimp only
  rw [hf]

/-! ## Pieces and fuel -/

/-- What a session may do, from one state of `handle_json` to another. Messages are at most `max`
bytes long and each is answered before the next; pongs are short, and nothing follows a close. -/
inductive Orderly (handleJson : σ → Bytes → Option Bytes × σ) (max : ℕ) : σ → List Effect → σ → Prop
  | done (state : σ) : Orderly handleJson max state [] state
  | close (state : σ) (payload : Bytes) : payload.length ≤ 125 →
      Orderly handleJson max state [.wrote opcodeClose payload] state
  | pong {state state' : σ} {effects : List Effect} (payload : Bytes) : payload.length ≤ 125 →
      Orderly handleJson max state effects state' →
      Orderly handleJson max state (.wrote opcodePong payload :: effects) state'
  | message {state state' : σ} {effects : List Effect} (payload : Bytes) : payload.length ≤ max →
      Orderly handleJson max (handleJson state payload).2 effects state' →
      Orderly handleJson max state
        (.handled payload :: ((handleJson state payload).1.map (Effect.wrote opcodeText)).toList ++ effects) state'

theorem length_websocketClosePayload_le (code : ℕ) (reason : String) : (websocketClosePayload code reason).length ≤ 125 := by
  unfold websocketClosePayload
  rw [List.length_append, length_be]
  have hreason := List.length_take_le 123 (ascii reason)
  omega

/-- One frame: a close is short, a message is within the limit, and so is what is kept of one. -/
theorem receive_bounds {s : Fragments} {f : WebSocketFrame} (hs : s.payload.length ≤ max) (hf : f.Allowed max) :
    (∀ opcode payload, s.receive max f = .stop opcode payload → opcode = opcodeClose ∧ payload.length ≤ 125) ∧
      (∀ s' reply, s.receive max f = .next s' reply → s'.payload.length ≤ max ∧
        (reply = none ∨ ∃ payload, reply = some (opcodePong, payload) ∧ payload.length ≤ 125)) ∧
      ∀ payload, s.receive max f = .message payload → payload.length ≤ max := by
  have hbroken : ∀ reason, (websocketClosePayload closeProtocolError reason).length ≤ 125 :=
    length_websocketClosePayload_le closeProtocolError
  have hlength := hf.length_le
  unfold Fragments.receive Outcome.broken
  by_cases hclose : f.opcode = opcodeClose
  · rw [if_pos hclose]
    refine ⟨?_, fun _ _ h => (by cases h), fun _ h => (by cases h)⟩
    intro opcode payload h
    cases h
    exact ⟨rfl, List.length_take_le _ _⟩
  rw [if_neg hclose]
  by_cases hping : f.opcode = opcodePing
  · rw [if_pos hping]
    refine ⟨fun _ _ h => (by cases h), ?_, fun _ h => (by cases h)⟩
    intro s' reply h
    cases h
    have hcontrol : f.opcode ∈ controlOpcodes := by
      rw [hping]
      decide
    exact ⟨hs, Or.inr ⟨f.payload, rfl, (hf.control hcontrol).2⟩⟩
  rw [if_neg hping]
  -- the branches in the order of the source
  split_ifs with hpong hcont hnone hlong hfin hdata hnested hfinal hlarge
  all_goals
    refine ⟨fun opcode payload h => ?_, fun s' reply h => ?_, fun payload h => ?_⟩ <;> cases h
  · exact ⟨hs, Or.inl rfl⟩
  · exact ⟨rfl, hbroken _⟩
  · exact ⟨rfl, hbroken _⟩
  · exact ⟨not_lt.1 hlong, Or.inl rfl⟩
  · exact not_lt.1 hlong
  · exact ⟨rfl, hbroken _⟩
  · exact hlength
  · exact ⟨rfl, hbroken _⟩
  · exact ⟨hlength, Or.inl rfl⟩
  · exact ⟨rfl, hbroken _⟩

/-- The loop keeps the rules from any point on. -/
theorem serve_orderly : ∀ (fuel : ℕ) (socket : Socket) (s : Fragments) (state : σ), s.payload.length ≤ max →
    Orderly handleJson max state (serve handleJson max fuel socket s state).1 (serve handleJson max fuel socket s state).2 := by
  intro fuel
  induction fuel with
  | zero =>
    intro socket s state _
    exact .done state
  | succ fuel ih =>
    intro socket s state hs
    rcases reading max socket with hrun | ⟨message, hrun⟩ | ⟨f, rest, hrun⟩
    · rw [serve_closed hrun]
      exact .done state
    · rw [serve_invalid hrun]
      exact .close state _ (length_websocketClosePayload_le _ _)
    · obtain ⟨hallowed, -⟩ := readWebsocketFrame_ok (Ask.run_ok hrun)
      obtain ⟨hstop, hnext, hmessage⟩ := receive_bounds hs hallowed
      rcases hf : s.receive max f with ⟨opcode, payload⟩ | ⟨s', reply⟩ | payload
      · rw [serve_stop hrun hf]
        obtain ⟨rfl, hshort⟩ := hstop _ _ hf
        exact .close state payload hshort
      · rw [serve_next hrun hf]
        obtain ⟨hs', rfl | ⟨payload, rfl, hshort⟩⟩ := hnext _ _ hf
        · exact ih rest s' state hs'
        · exact .pong payload hshort (ih rest s' state hs')
      · rw [serve_message hrun hf]
        exact .message payload (hmessage _ hf) (ih rest .none _ (Nat.zero_le _))

/-- The frames among the effects of a session. -/
def sentFrames (effects : List Effect) : List (ℕ × Bytes) :=
  effects.filterMap fun
    | .wrote opcode payload => some (opcode, payload)
    | .handled _ => none

/-- The bytes of some frames, one after another. -/
def sentBytes (frames : List (ℕ × Bytes)) : Bytes := frames.flatMap fun f => writeWebsocketFrame f.1 f.2

theorem sentBytes_inj {frames frames' : List (ℕ × Bytes)} (hall : ∀ f ∈ frames, f.1 < 16 ∧ f.2.length < 2 ^ 63)
    (hall' : ∀ f ∈ frames', f.1 < 16 ∧ f.2.length < 2 ^ 63) (h : sentBytes frames = sentBytes frames') : frames = frames' := by
  induction frames generalizing frames' with
  | nil =>
    cases frames' with
    | nil => rfl
    | cons f' frames' => cases h
  | cons f frames ih =>
    cases frames' with
    | nil => cases h
    | cons f' frames' =>
      rw [List.forall_mem_cons] at hall hall'
      obtain ⟨hop, hpayload, hrest⟩ := writeWebsocketFrame_inj hall.1.1 hall'.1.1 hall.1.2 hall'.1.2 h
      rw [Prod.ext hop hpayload, ih hall.2 hall'.2 hrest]

/-- Every frame of a session has an opcode and a length that fit its header. -/
theorem Orderly.frames_fit {state state' : σ} {effects : List Effect} (h : Orderly handleJson max state effects state')
    (hanswers : ∀ s payload answer, (handleJson s payload).1 = some answer → answer.length < 2 ^ 63) :
    ∀ f ∈ sentFrames effects, f.1 < 16 ∧ f.2.length < 2 ^ 63 := by
  induction h with
  | done => exact fun f hf => absurd hf List.not_mem_nil
  | close state payload hshort =>
    intro f hf
    obtain rfl := List.mem_singleton.1 hf
    exact ⟨show opcodeClose < 16 by decide, lt_of_le_of_lt hshort (by decide)⟩
  | pong payload hshort _ ih =>
    intro f hf
    rcases List.mem_cons.1 hf with rfl | hf
    · exact ⟨show opcodePong < 16 by decide, lt_of_le_of_lt hshort (by decide)⟩
    · exact ih f hf
  | @message state state' effects payload _ _ ih =>
    intro f hf
    cases hanswer : (handleJson state payload).1 with
    | none =>
      rw [hanswer] at hf
      exact ih f hf
    | some answer =>
      rw [hanswer] at hf
      rcases List.mem_cons.1 hf with rfl | hf
      · exact ⟨show opcodeText < 16 by decide, hanswers _ _ _ hanswer⟩
      · exact ih f hf

/-- **What the client receives tells it what the server has sent.** Two sessions that send the same
bytes send the same frames. -/
theorem sentFrames_of_sentBytes {σ' : Type} {handleJson' : σ' → Bytes → Option Bytes × σ'} {max' : ℕ}
    (hanswers : ∀ s payload answer, (handleJson s payload).1 = some answer → answer.length < 2 ^ 63)
    (hanswers' : ∀ s payload answer, (handleJson' s payload).1 = some answer → answer.length < 2 ^ 63)
    (socket socket' : Socket) (state : σ) (state' : σ')
    (h : sentBytes (sentFrames (handleWebsocket handleJson max socket state).1) =
      sentBytes (sentFrames (handleWebsocket handleJson' max' socket' state').1)) :
    sentFrames (handleWebsocket handleJson max socket state).1 =
      sentFrames (handleWebsocket handleJson' max' socket' state').1 :=
  sentBytes_inj ((serve_orderly _ socket .none state (Nat.zero_le _)).frames_fit hanswers)
    ((serve_orderly _ socket' .none state' (Nat.zero_le _)).frames_fit hanswers') h

/-! ## A client that keeps the rules -/

end WebSocket

end TensorPow
