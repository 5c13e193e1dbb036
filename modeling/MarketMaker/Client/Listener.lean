import MarketMaker.Client.Session
import MarketMaker.Lib.Mealy
import MarketMaker.Lib.WebSocket

/-!
# The picows adapter

`mmclient/ws_picows.py`: `_Listener`, the callbacks of one connection, and the tick of `_timer`. A
callback takes the listener and returns the new one and what it did, in order: the payloads it
handed to the driver, and what it sent.

What the listener reads of the transport is whether a close frame was sent and whether the
connection is gone. The futures that `run_client` waits for are left out.
-/

namespace MarketMaker

namespace Client

/-- `MAX_MSG_BYTES`. -/
def MAX_MSG_BYTES : ℕ := 64 * 1024

/-! ## Close codes -/

/-- `_SENDABLE_CLOSE_CODES`. -/
def SENDABLE_CLOSE_CODES : List ℕ :=
  [1000, 1001, 1002, 1003, 1007, 1008, 1009, 1010, 1011, 1012, 1013]

/-- `is_sendable_close_code`. -/
def isSendableCloseCode (code : ℕ) : Bool :=
  code ∈ SENDABLE_CLOSE_CODES || (3000 ≤ code && code ≤ 4999)

/-- `classify_close_body`: the code of a peer's close, and whether it may be echoed. -/
def classifyCloseBody : Bytes → Option ℕ × Bool
  | [] => (none, true)
  | [_] => (some 0, false)
  | high :: low :: _ =>
    let code := high.toNat * 256 + low.toNat
    (some code, isSendableCloseCode code)

/-- `reason[:120].encode()`. -/
def shownReason (reason : Bytes) : Bytes :=
  (Str.encode (((Str.decode reason).getD []).take 120)).getD []

/-! ## Frames -/

/-- A frame that picows delivers: a control frame is not fragmented, and a data frame is within
`max_frame_size`. -/
structure WSFrame extends WebSocket.Frame where
  whole : opcode.isControl = true → fin = true
  cap : opcode.isControl = false → payload.length ≤ MAX_MSG_BYTES

/-- What a callback does, beside changing the listener. -/
inductive Action
  /-- `SessionDriver.on_bytes` is called with this payload. -/
  | handed (payload : Bytes)
  | send (frame : Bytes)
  | pong (payload : Bytes)
  | close (code : ℕ) (reason : Bytes)
  deriving DecidableEq, Repr

/-- The mutable state of `_Listener`, and what it reads of its transport. -/
structure Listener where
  driver : SessionDriver := {}
  fragments : List Bytes := []
  fragmentBytes : ℕ := 0
  opened : Bool := false
  dataEnded : Bool := false
  closeReceived : Bool := false
  finalized : Bool := false
  callbackError : Option Fault := none
  isCloseFrameSent : Bool := false
  isDisconnected : Bool := false

namespace Listener

variable (cfg : StrategyConfig) (codec : Codec)

/-! ## Ends -/

/-- `_fragments.clear()`, and what goes with it. -/
def clear (l : Listener) : Listener :=
  { l with fragments := [], fragmentBytes := 0, opened := false }

/-- `finish`. -/
def finish (l : Listener) : Listener := { l with dataEnded := true }

/-- `end_data`. -/
def endData (l : Listener) : Listener := { l with dataEnded := true }

/-- `finalize`. -/
def finalize (l : Listener) : Listener :=
  if l.finalized then l
  else ({ l with finalized := true, driver := l.driver.onDisconnect } : Listener).finish

/-- `on_ws_disconnected`, when the connection is gone. -/
def onWsDisconnected (l : Listener) : Listener :=
  ({ l with isDisconnected := true } : Listener).finalize

/-- `_close`. -/
def close (l : Listener) : Listener × List Action :=
  if l.isCloseFrameSent || l.isDisconnected then (l, [])
  else
    let intent := l.driver.close.getD { code := CLOSE_NORMAL, reason := ascii "client shutdown" }
    let code := if isSendableCloseCode intent.code then intent.code else CLOSE_PROTOCOL
    ({ l with isCloseFrameSent := true }, [.close code (shownReason intent.reason)])

/-- Note a verdict, send the close and end the session. -/
def closeWith (l : Listener) (reason : Bytes) (code : ℕ) : Listener × List Action :=
  let closed := ({ l with driver := l.driver.noteProtocolError reason code } : Listener).close
  (closed.1.finish, closed.2)

/-- `_abort`. -/
def abort (l : Listener) (reason : Bytes) (code : ℕ) : Listener × List Action :=
  l.clear.closeWith reason code

/-! ## Control frames -/

/-- `_on_peer_close`. -/
def onPeerClose (l : Listener) (frame : WSFrame) : Listener × List Action :=
  let l := l.clear
  let body := frame.payload
  let (code, legal) := classifyCloseBody body
  let l :=
    if legal then l
    else
      { l with
        driver := l.driver.noteProtocolError
          (ascii "peer sent an illegal close code " ++ decimal (code.getD 0)) CLOSE_PROTOCOL }
  let answer : List Action :=
    if l.isCloseFrameSent then []
    else
      match code with
      | none => [.close CLOSE_NORMAL []]
      | some code =>
        if legal then [.close code (body.drop 2)]
        else [.close CLOSE_PROTOCOL (ascii "illegal close code")]
  (({ l with isCloseFrameSent := true, closeReceived := true } : Listener).finish, answer)

/-- `_on_control`. -/
def onControl (l : Listener) (frame : WSFrame) : Listener × List Action :=
  match frame.opcode with
  | .close => l.onPeerClose frame
  | .ping => (l, [.pong frame.payload])
  | _ => (l, [])

/-! ## Data frames -/

/-- `_reassemble`: the message that the frame completes, if it does. -/
def reassemble (l : Listener) (frame : WSFrame) : (Listener × List Action) × Option Bytes :=
  let chunk := frame.payload
  let continuation := frame.opcode = .continuation
  if continuation ∧ ¬l.opened then
    (l.abort (ascii "continuation frame with no message open") CLOSE_PROTOCOL, none)
  else if ¬continuation ∧ l.opened then
    (l.abort (ascii "new data frame while a fragmented message is open") CLOSE_PROTOCOL, none)
  else if frame.fin ∧ ¬l.opened then ((l, []), some chunk)
  else
    let l := { l with fragmentBytes := l.fragmentBytes + chunk.length }
    if l.fragmentBytes > MAX_MSG_BYTES then
      (l.abort (ascii "reassembled message past the 64 KiB cap") CLOSE_TOO_BIG, none)
    else
      let l := { l with fragments := l.fragments ++ [chunk], opened := !frame.fin }
      if ¬frame.fin then ((l, []), none)
      else
        (({ l with fragments := [], fragmentBytes := 0 }, []), some l.fragments.flatten)

/-- The part of `_on_data` after the driver has been called. -/
def afterBytes (l : Listener) (payload : Bytes) (frames : List Bytes) : Listener × List Action :=
  let sent := .handed payload :: frames.map .send
  if l.driver.close.isSome then (l.close.1.finish, sent ++ l.close.2) else (l, sent)

/-- The handler of `on_ws_frame`. -/
def onFault (l : Listener) (fault : Fault) : Listener :=
  ({ l with callbackError := some fault } : Listener).clear.finish

/-- `_on_data`. -/
def onData (l : Listener) (frame : WSFrame) (nowNs : ℤ) : Listener × List Action :=
  if frame.opcode = .binary then
    l.abort (ascii "binary frame: the mm.v1 wire is text-only") CLOSE_PROTOCOL
  else
    match l.reassemble frame with
    | (r, none) => r
    | ((l, _), some payload) =>
      if Utf8.Valid payload then
        match l.driver.onBytes cfg codec payload nowNs with
        | (driver, .ok frames) => ({ l with driver } : Listener).afterBytes payload frames
        | (driver, .error fault) =>
          (({ l with driver } : Listener).onFault fault, [.handed payload])
      else l.closeWith (ascii "text frame is not valid UTF-8") CLOSE_BAD_PAYLOAD

/-- `on_ws_frame`. -/
def onWsFrame (l : Listener) (frame : WSFrame) (nowNs : ℤ) : Listener × List Action :=
  if l.closeReceived then (l, [])
  else if frame.reserved then
    l.abort (ascii "reserved bit set with no extension negotiated") CLOSE_PROTOCOL
  else if frame.opcode.isControl then l.onControl frame
  else if l.dataEnded || l.driver.close.isSome then (l, [])
  else l.onData cfg codec frame nowNs

/-! ## The timer -/

/-- A tick of `_timer`. -/
def onTick (l : Listener) (nowNs : ℤ) : Listener × List Action :=
  match l.driver.onTimer cfg codec nowNs with
  | (driver, .error _) => ({ l with driver }, [])
  | (driver, .ok frames) =>
    let l := { l with driver }
    let sent := frames.map .send
    if l.driver.close.isSome then (l.close.1.finish, sent ++ l.close.2) else (l, sent)

/-! ## Runs -/

/-- What may happen to a listener. -/
inductive Event
  | frame (frame : WSFrame) (nowNs : ℤ)
  | tick (nowNs : ℤ)
  | endData
  | disconnected

def step (l : Listener) : Event → Listener × List Action
  | .frame frame nowNs => l.onWsFrame cfg codec frame nowNs
  | .tick nowNs => l.onTick cfg codec nowNs
  | .endData => (l.endData, [])
  | .disconnected => (l.onWsDisconnected, [])

/-- A run of events on a new connection. -/
abbrev run (events : List Event) : Listener × List (Event × List Action) :=
  Mealy.run (step cfg codec) {} events

end Listener

end Client

end MarketMaker
