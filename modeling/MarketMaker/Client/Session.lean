import MarketMaker.Client.Decode
import MarketMaker.Client.Encode
import MarketMaker.Client.Tags
import MarketMaker.Strategy.Basic

/-!
# The session of a client

`mmclient/_session.py`: `SessionDriver`, the half of a client session that no transport is part of.
A method takes the driver and its arguments and returns the new driver and the frames to send, or
the exception that leaves it.

The strategy reads a message by its attributes (`EngineMsg.toOutMsg`) and writes its commands into
objects (`InMsg.toClientMsg`). Octets that are no UTF-8 stand for a `str` that has no UTF-8.
-/

namespace MarketMaker

namespace Client

/-! ## Messages as objects -/

namespace EngineMsg

/-- The attribute `name`, a number. -/
def intAttr (msg : EngineMsg) (name : String) : ℤ :=
  match msg.attrs.lookup name with
  | some (.int z) => z
  | _ => 0

/-- The attribute `name`, a number that is never negative. -/
def natAttr (msg : EngineMsg) (name : String) : ℕ := (msg.intAttr name).toNat

/-- The attribute `name`, a string. -/
def strAttr (msg : EngineMsg) (name : String) : Bytes :=
  match msg.attrs.lookup name with
  | some (.str s) => s
  | _ => []

/-- The message, with the attributes that its class has. -/
def toOutMsg (msg : EngineMsg) : OutMsg :=
  let v := msg.v.toNat
  let seq := msg.natAttr "seq"
  let epoch := msg.natAttr "epoch"
  let clId := msg.strAttr "cl_id"
  let engId := msg.natAttr "eng_id"
  let status := msg.strAttr "status"
  match msg.cls with
  | .tob =>
    .tob
      { v, seq, epoch, mdSeq := msg.natAttr "md_seq", symbol := msg.strAttr "symbol"
        bidPx := msg.intAttr "bid_px", bidQty := msg.intAttr "bid_qty"
        askPx := msg.intAttr "ask_px", askQty := msg.intAttr "ask_qty" }
  | .orderAck => .orderAck { v, seq, epoch, clId, engId, status, svcNs := msg.intAttr "svc_ns" }
  | .cancelAck => .cancelAck { v, seq, epoch, clId, engId, status }
  | .reject =>
    .reject { v, seq, epoch, clId, code := msg.strAttr "code", reason := msg.strAttr "reason" }
  | .fill =>
    .fill
      { v, seq, epoch, clId, engId, px := msg.intAttr "px", qty := msg.intAttr "qty"
        leaves := msg.intAttr "leaves", execId := msg.natAttr "exec_id" }

end EngineMsg

/-- The `str` of some octets. -/
def PyObject.ofBytes (t : Bytes) : PyObject := .str ((Str.decode t).getD [0xD800])

/-- The fields of a message, written into an object. -/
def toClientMsg : InMsg → ClientMsg
  | .newOrder m =>
    .newOrder
      { v := .int m.v, seq := .int m.seq, epoch := .int m.epoch, mdSeq := .int m.mdSeq
        clId := .ofBytes m.clId, symbol := .ofBytes m.symbol, side := .ofBytes m.side
        px := .int m.px, qty := .int m.qty, postOnly := .bool m.postOnly }
  | .cancelOrder m =>
    .cancelOrder
      { v := .int m.v, seq := .int m.seq, epoch := .int m.epoch, clId := .ofBytes m.clId }

/-- `msg.seq = seq` and `msg.epoch = epoch`. -/
def stampMsg (seq epoch : ℕ) : InMsg → InMsg
  | .newOrder m => .newOrder { m with seq, epoch }
  | .cancelOrder m => .cancelOrder { m with seq, epoch }

/-! ## The driver -/

/-- `Codec`: one arm's serialization pair. -/
structure Codec where
  decode : Bytes → Except Raise EngineMsg
  encode : ClientMsg → Except EncodeRaise Bytes
  /-- The text of a `UnicodeEncodeError`. -/
  encodeError : Bytes

/-- The text of a `ValueError`; `none` is any other exception. -/
def EncodeRaise.text (encodeError : Bytes) : EncodeRaise → Option Bytes
  | valueError text => some text
  | unicodeEncodeError => some encodeError
  | typeError _ => none
  | library => none

def CLOSE_NORMAL : ℕ := 1000

def CLOSE_PROTOCOL : ℕ := 1002

def CLOSE_TOO_BIG : ℕ := 1009

def CLOSE_BAD_PAYLOAD : ℕ := 1007

def CLOSE_STALE : ℕ := 4000

/-- `CloseIntent`. -/
structure CloseIntent where
  code : ℕ
  reason : Bytes
  deriving DecidableEq, Repr

/-- An exception that leaves a method of the driver. -/
inductive Fault
  /-- The `AssertionError` of `_stamp`. -/
  | assertion
  | decode (exc : Raise)
  | encode (exc : EncodeRaise)
  deriving DecidableEq, Repr

/-- The mutable state of `SessionDriver`. -/
structure SessionDriver where
  strategy : Strategy := {}
  outSeq : ℕ := 0
  epoch : Option ℕ := none
  close : Option CloseIntent := none

namespace SessionDriver

variable (cfg : StrategyConfig) (codec : Codec)

/-- `_latch`: the first intent wins. -/
def latch (d : SessionDriver) (code : ℕ) (reason : Bytes) : SessionDriver :=
  if d.close.isNone then { d with close := some { code, reason } } else d

/-- `_note_stop`. -/
def noteStop (d : SessionDriver) (reason : Bytes) : SessionDriver :=
  let stale := (ascii "stale feed").isPrefixOf reason
  d.latch (if stale then CLOSE_STALE else CLOSE_PROTOCOL) reason

/-- `_stamp`. -/
def stamp (d : SessionDriver) (msg : InMsg) : SessionDriver × Except Fault ClientMsg :=
  let d := { d with outSeq := d.outSeq + 1 }
  match d.epoch with
  | none => (d, .error .assertion)
  | some epoch => (d, .ok (toClientMsg (stampMsg d.outSeq epoch msg)))

/-- The loop of `_dispatch`, over the commands that are left. -/
def dispatchLoop (d : SessionDriver) :
    List Cmd → List Bytes → SessionDriver × Except Fault (List Bytes)
  | [], frames => (d, .ok frames)
  | .stopQuoting reason :: cmds, frames => dispatchLoop (d.noteStop reason) cmds frames
  | .send msg :: cmds, frames =>
    match d.stamp msg with
    | (d, .error fault) => (d, .error fault)
    | (d, .ok stamped) =>
      match codec.encode stamped with
      | .ok frame => dispatchLoop d cmds (frames ++ [frame])
      | .error exc =>
        match exc.text codec.encodeError with
        | some text =>
          (d.latch CLOSE_PROTOCOL (ascii "outbound field outside wire domain: " ++ text),
            .ok frames)
        | none => (d, .error (.encode exc))

/-- `_dispatch`. -/
def dispatch (d : SessionDriver) (cmds : List Cmd) : SessionDriver × Except Fault (List Bytes) :=
  d.dispatchLoop codec cmds []

/-- The epoch of the first message is the epoch of the session. -/
def adopt (d : SessionDriver) (epoch : ℕ) : SessionDriver :=
  if d.epoch.isNone then
    { d with epoch := some epoch, strategy := (d.strategy.onConnect epoch).1 }
  else d

/-- `on_bytes`. -/
def onBytes (d : SessionDriver) (raw : Bytes) (nowNs : ℤ) :
    SessionDriver × Except Fault (List Bytes) :=
  if d.close.isSome then (d, .ok [])
  else
    match codec.decode raw with
    | .error (.valueError text) =>
      (d.latch CLOSE_PROTOCOL (ascii "undecodable frame: " ++ text), .ok [])
    | .error exc => (d, .error (.decode exc))
    | .ok msg =>
      let d := d.adopt (msg.natAttr "epoch")
      let r := d.strategy.onReport cfg msg.toOutMsg nowNs
      ({ d with strategy := r.1 } : SessionDriver).dispatch codec r.2

/-- `note_protocol_error`. -/
def noteProtocolError (d : SessionDriver) (reason : Bytes) (code : ℕ) : SessionDriver :=
  d.latch code reason

/-- `on_timer`. -/
def onTimer (d : SessionDriver) (nowNs : ℤ) : SessionDriver × Except Fault (List Bytes) :=
  let r := d.strategy.onTimer cfg nowNs
  ({ d with strategy := r.1 } : SessionDriver).dispatch codec r.2

/-- `on_disconnect`. -/
def onDisconnect (d : SessionDriver) : SessionDriver :=
  { d with strategy := d.strategy.onDisconnect.1 }

/-- After the epoch is known every message is stamped. -/
theorem stamp_of_epoch {d : SessionDriver} {epoch : ℕ} (h : d.epoch = some epoch) (msg : InMsg) :
    d.stamp msg = ({ d with outSeq := d.outSeq + 1 },
      .ok (toClientMsg (stampMsg (d.outSeq + 1) epoch msg))) := by
  rw [stamp]
  dsimp only
  rw [h]

end SessionDriver

/-! ## The two arms -/

/-- What the codecs take from Python and from its libraries. -/
structure Platform where
  decodeError : Bytes → Bytes
  encodeError : Bytes
  limit : DigitLimit
  /-- The typed decoder of `msgspec`; `none` is its `DecodeError`. -/
  typed : Bytes → Option EngineMsg
  lib : Serializers

/-- `protocol.decode` and `protocol.encode`. -/
def Platform.tuned (platform : Platform) : Codec where
  decode := decode platform.decodeError platform.limit platform.typed
  encode := encode platform.lib
  encodeError := platform.encodeError

/-- `protocol.decode_naive` and `protocol.encode_naive`. -/
def Platform.naive (platform : Platform) : Codec where
  decode := decodeNaive platform.decodeError platform.limit
  encode := encodeNaive platform.lib
  encodeError := platform.encodeError

end Client

end MarketMaker
