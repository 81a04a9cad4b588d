import TensorPow.Spec.Basic
import TensorPow.Stream.Ask

/-!
# WebSocket sessions

The frames and the session loop of `rpc/server.py`. A socket delivers its bytes in pieces; the
server reads one masked frame after another, answers pings, joins the fragments of a message,
and passes whole messages to `handle_json`, whose own state is a parameter here.

* `readWebsocketFrame`, `writeWebsocketFrame`: frames on the wire.
* `Fragments.receive`: what one frame does to a session.
* `handleWebsocket`: the session, as the list of what it does.
-/

namespace TensorPow

namespace WebSocket

open Wire Stream

/-! ## Constants -/

/-- `WS_OPCODE_CONTINUATION`. -/
def opcodeContinuation : ℕ := 0x0

/-- `WS_OPCODE_TEXT`. -/
def opcodeText : ℕ := 0x1

/-- `WS_OPCODE_BINARY`. -/
def opcodeBinary : ℕ := 0x2

/-- `WS_OPCODE_CLOSE`. -/
def opcodeClose : ℕ := 0x8

/-- `WS_OPCODE_PING`. -/
def opcodePing : ℕ := 0x9

/-- `WS_OPCODE_PONG`. -/
def opcodePong : ℕ := 0xA

/-- `WS_CLOSE_PROTOCOL_ERROR`. -/
def closeProtocolError : ℕ := 1002

/-- The opcodes whose frames are short and never fragmented. -/
def controlOpcodes : List ℕ := [opcodeClose, opcodePing, opcodePong]

/-! ## Frames -/

/-- `_WebSocketFrame`. -/
structure WebSocketFrame where
  fin : Bool
  opcode : ℕ
  payload : Bytes
deriving DecidableEq

/-- A socket, by what it still delivers. -/
abbrev Socket := List (Arrival Byte)

/-- Why no frame was read: the socket ended or failed, or the frame is not allowed. -/
inductive ReadEnd where
  | closed
  | invalid (message : String)
deriving DecidableEq

/-- `int.to_bytes(width, "big")`. -/
def be (width n : ℕ) : Bytes := (le width n).reverse

/-- The bytes of a payload under a mask. -/
def unmask (mask payload : Bytes) : Bytes := payload.mapIdx fun index byte => byte ^^^ mask.getD (index % 4) 0

/-- The length that follows a frame's first two bytes. -/
def readLength (length : ℕ) : Ask Byte ReadEnd ℕ :=
  if length = 126 then do
    let extended ← Ask.take 2
    Ask.ensure (126 ≤ ofBe extended) (.invalid "Invalid WebSocket frame length")
    return ofBe extended
  else if length = 127 then do
    let extended ← Ask.take 8
    Ask.ensure (65536 ≤ ofBe extended ∧ ofBe extended < 2 ^ 63) (.invalid "Invalid WebSocket frame length")
    return ofBe extended
  else return length

/-- `_read_websocket_frame`, with `_read_exact` for each of its reads. -/
def readWebsocketFrame (maxPayloadBytes : ℕ) : Ask Byte ReadEnd WebSocketFrame := do
  let header ← Ask.take 2
  let first := (header.getD 0 0).val
  let second := (header.getD 1 0).val
  let fin := decide (first &&& 0x80 ≠ 0)
  let opcode := first &&& 0x0F
  Ask.ensure (first &&& 0x70 = 0 ∧ second &&& 0x80 ≠ 0) (.invalid "Invalid WebSocket frame")
  Ask.ensure (¬(opcode ∈ controlOpcodes ∧ (fin = false ∨ 125 < second &&& 0x7F)))
    (.invalid "Invalid WebSocket control frame")
  let length ← readLength (second &&& 0x7F)
  Ask.ensure (length ≤ maxPayloadBytes) (.invalid "WebSocket frame too large")
  let mask ← Ask.take 4
  let payload ← Ask.take length
  return ⟨fin, opcode, unmask mask payload⟩

/-- The length of a payload in the header of a frame, with the mask bit in front. -/
def lengthBytes (maskBit length : ℕ) : Bytes :=
  if length ≤ 125 then [Fin.ofNat 256 (maskBit + length)]
  else if length ≤ 0xFFFF then Fin.ofNat 256 (maskBit + 126) :: be 2 length
  else Fin.ofNat 256 (maskBit + 127) :: be 8 length

/-- `_write_websocket_frame`: the bytes it sends. -/
def writeWebsocketFrame (opcode : ℕ) (payload : Bytes) : Bytes :=
  Fin.ofNat 256 (0x80 ||| opcode) :: lengthBytes 0 payload.length ++ payload

/-- The bytes of an ASCII string. -/
def ascii (s : String) : Bytes := s.toList.map fun c => Fin.ofNat 256 c.toNat

/-- `_websocket_close_payload`, for the reasons the server gives, which are ASCII. -/
def websocketClosePayload (code : ℕ) (reason : String) : Bytes := be 2 code ++ (ascii reason).take 123

/-! ## Sessions -/

/-- What a session does: it sends a frame, or passes a message to `handle_json`. -/
inductive Effect where
  | wrote (opcode : ℕ) (payload : Bytes)
  | handled (payload : Bytes)
deriving DecidableEq

/-- `fragmented_opcode` and `fragmented_payload`. -/
structure Fragments where
  opcode : Option ℕ
  payload : Bytes
deriving DecidableEq

/-- What one frame leads to. -/
inductive Outcome where
  /-- a last frame is sent, and the session ends -/
  | stop (opcode : ℕ) (payload : Bytes)
  /-- the session goes on, after sending a frame or not -/
  | next (fragments : Fragments) (reply : Option (ℕ × Bytes))
  /-- a message is complete -/
  | message (payload : Bytes)
deriving DecidableEq

/-- No message is under way. -/
def Fragments.none : Fragments := ⟨Option.none, []⟩

/-- A close frame for a broken rule. -/
def Outcome.broken (reason : String) : Outcome := .stop opcodeClose (websocketClosePayload closeProtocolError reason)

/-- The body of the loop of `_handle_websocket` for a frame. -/
def Fragments.receive (maxBodyBytes : ℕ) (s : Fragments) (frame : WebSocketFrame) : Outcome :=
  if frame.opcode = opcodeClose then .stop opcodeClose (frame.payload.take 125)
  else if frame.opcode = opcodePing then .next s (some (opcodePong, frame.payload))
  else if frame.opcode = opcodePong then .next s Option.none
  else if frame.opcode = opcodeContinuation then
    if s.opcode = Option.none then .broken "unexpected fragment"
    else if maxBodyBytes < (s.payload ++ frame.payload).length then .broken "message too large"
    else if frame.fin = false then .next { s with payload := s.payload ++ frame.payload } Option.none
    else .message (s.payload ++ frame.payload)
  else if frame.opcode = opcodeText ∨ frame.opcode = opcodeBinary then
    if s.opcode ≠ Option.none then .broken "nested fragment"
    else if frame.fin then .message frame.payload
    else if maxBodyBytes < frame.payload.length then .broken "message too large"
    else .next ⟨some frame.opcode, frame.payload⟩ Option.none
  else .broken "unsupported opcode"

variable {σ : Type}

/-- The loop of `_handle_websocket`, for at most `fuel` frames. `handleJson` answers a message or not
and may change its own state. -/
def serve (handleJson : σ → Bytes → Option Bytes × σ) (maxBodyBytes : ℕ) :
    (fuel : ℕ) → Socket → Fragments → σ → List Effect × σ
  | 0, _, _, state => ([], state)
  | fuel + 1, socket, fragments, state =>
    match (readWebsocketFrame maxBodyBytes).run .closed socket with
    | .error .closed => ([], state)
    | .error (.invalid _) => ([.wrote opcodeClose (websocketClosePayload closeProtocolError "protocol error")], state)
    | .ok (frame, rest) =>
      match fragments.receive maxBodyBytes frame with
      | .stop opcode payload => ([.wrote opcode payload], state)
      | .next fragments reply =>
        let after := serve handleJson maxBodyBytes fuel rest fragments state
        ((reply.map fun r => Effect.wrote r.1 r.2).toList ++ after.1, after.2)
      | .message payload =>
        let answer := handleJson state payload
        let after := serve handleJson maxBodyBytes fuel rest .none answer.2
        (.handled payload :: (answer.1.map (Effect.wrote opcodeText)).toList ++ after.1, after.2)

/-- `_handle_websocket` after the handshake. A frame has at least six bytes, so that the fuel is
enough. -/
def handleWebsocket (handleJson : σ → Bytes → Option Bytes × σ) (maxBodyBytes : ℕ) (socket : Socket) (state : σ) :
    List Effect × σ :=
  serve handleJson maxBodyBytes ((content socket).length + 1) socket .none state

end WebSocket

end TensorPow
