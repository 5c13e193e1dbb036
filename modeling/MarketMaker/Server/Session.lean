import MarketMaker.Codec.Basic
import MarketMaker.Engine.Basic
import MarketMaker.Server.Outbox

/-!
# One WebSocket session

`Session` (`session.cpp`, `session_close.cpp`) and the part of `ServerImpl` that a session reaches.
A session runs only inside the completion of one of its own operations, or when the server hands it
a report, a tick or a close. Such a call is a function on a `Turn`: the server and the session.

The transport is what the operations complete with: any result at any time, in any order. A timer
that severs the socket changes nothing here, it only makes such a completion come. The codec is a
parameter, and `steady_ns` reads an arbitrary clock.

Two fields are instrumentation, written and never read: `Session.log` records what a session
queued, wrote and closed, and `ServerImpl.calls` every engine call with what it returned.

Left out: the benchmark recorder, the write-side gauges of the telemetry ring, and the process
around the event loop.
-/

namespace MarketMaker

/-! ## Configuration and parameters -/

/-- `mm::FeedEvent`. -/
inductive FeedEvent
  | set (bidPx bidQty askPx askQty : ℤ)
  | halt (ms : ℤ)
  | drop
  | finish
  deriving DecidableEq, Repr

/-- What the `ServerImpl` constructor accepts of `mm::Config`, with the loaded feed. -/
structure ServerConfig where
  engine : EngineConfig
  reportHwm : ℕ
  maxSessions : ℕ
  telemetryVerbose : Bool
  loopFeed : Bool
  feed : List FeedEvent
  reportHwm_pos : 0 < reportHwm
  maxSessions_pos : 0 < maxSessions

/-- The codec never fails to encode. -/
def Codec.Total (codec : Codec) : Prop := ∀ msg, codec.encode msg ≠ []

/-- `kMaxInboundMsgBytes`. -/
def maxInboundMsgBytes : ℕ := 64 * 1024

/-- `kRejectCoalesceWindow`, in nanoseconds. -/
def rejectCoalesceWindow : ℤ := 1000000000

/-- The close codes a session latches. -/
inductive CloseCode
  | none
  | goingAway
  | protocolError
  | policyError
  | tooBig
  | internalError
  deriving DecidableEq, Repr

/-- The wire value of a close code. -/
def CloseCode.toNat : CloseCode → ℕ
  | .none => 0
  | .goingAway => 1001
  | .protocolError => 1002
  | .policyError => 1008
  | .tooBig => 1009
  | .internalError => 1011

/-! ## Telemetry -/

/-- `mm::Counters`. -/
structure Counters where
  orders : ℕ := 0
  fills : ℕ := 0
  rejects : ℕ := 0
  cancels : ℕ := 0
  conflated : ℕ := 0
  outboxDepthHw : ℕ := 0
  sendLagMaxNs : ℕ := 0
  sessions : ℕ := 0
  liveOrders : ℕ := 0
  staleBooksIgnored : ℕ := 0
  deriving DecidableEq, Repr

/-- `mm::TelemetryEvent`. -/
inductive TelemetryEvent
  | sessionOpen
  | sessionClose
  | hwmClose
  | reject
  | cmdIn
  | tobOut
  | admissionRefused
  | entryCapClose
  | upgradeRefused
  deriving DecidableEq, Repr

/-- `mm::CountersPart`. -/
inductive CountersPart
  | totals
  | watermarks
  deriving DecidableEq, Repr

/-- `mm::TelemetryRecord`. -/
inductive TelemetryRecord
  | event (event : TelemetryEvent) (tsNs : ℤ) (a0 a1 : ℤ)
  | counters (part : CountersPart) (tsNs : ℤ) (counters : Counters)
  deriving DecidableEq, Repr

/-! ## State -/

/-- `ServerImpl`. -/
structure ServerImpl where
  engine : OrderEngine := {}
  /-- `sessions_`: the session object of each open epoch. -/
  sessions : OrderedMap ℕ ℕ := .empty
  counters : Counters := {}
  conflatedBase : ℕ := 0
  /-- What was pushed into the telemetry ring. -/
  telemetry : List TelemetryRecord := []
  feedIndex : ℕ := 0
  nextMdSeq : ℕ := 0
  nextEpoch : ℕ := 0
  peakSessions : ℕ := 0
  /-- `upgrades_`: weak references to pending upgrades. -/
  upgrades : List ℕ := []
  /-- `handshaking_`: weak references to sessions whose handshake is in flight. -/
  handshaking : List ℕ := []
  acceptorOpen : Bool := true
  /-- An accept, or its backoff, is pending. -/
  accepting : Bool := true
  stopping : Bool := false
  finalized : Bool := false
  /-- What the steady clock reads, one value per call. -/
  clock : ℕ → ℤ
  readings : ℕ := 0
  calls : List (OrderEngine.Call × List Routed) := []

/-- The operation a session receives through. -/
inductive Reading
  | idle
  /-- The WebSocket read. -/
  | message
  /-- The close that follows an oversize frame. -/
  | closing
  /-- The raw read that drains the socket after it. -/
  | drain
  deriving DecidableEq, Repr

/-- What drew a report. -/
inductive Cause
  /-- The session itself refused a frame. -/
  | session
  /-- A command, and the service time measured for it. -/
  | command (cmd : InMsg) (svc : ℤ)
  /-- The book with this `md_seq`. -/
  | book (mdSeq : ℕ)
  deriving DecidableEq, Repr

/-- What a session did. -/
inductive Entry
  /-- A report entered the outbox, which then held `queued` of them. -/
  | enqueued (msg : OutMsg) (cause : Cause) (queued : ℕ)
  /-- A tick entered the outbox. -/
  | ticked (mdSeq : ℕ)
  /-- A tick was discarded in favour of the close. -/
  | discarded (mdSeq : ℕ)
  /-- A frame was handed to `async_write`. -/
  | wrote (frame : OutMsg)
  | latched (code : CloseCode)
  /-- The close frame was started. -/
  | closeFrame
  /-- `session_closed` was called. -/
  | closed (code : ℕ)
  deriving DecidableEq, Repr

/-- `Session`. -/
structure Session where
  /-- Zero until the session starts. -/
  epoch : ℕ := 0
  outbox : Outbox
  outSeq : ℕ := 1
  inSeqExpected : ℕ := 1
  /-- The service times of the acks in the outbox, in order. -/
  pendingSvc : List ℤ := []
  /-- The codes narrated in the current window. -/
  rejectLatch : List RejectCode := []
  rejectLatchNs : ℤ := 0
  retiredAcks : ℕ := 0
  writeInflight : Bool := false
  writeStartNs : ℤ := 0
  closing : Bool := false
  drainThenClose : Bool := false
  closeFrameSent : Bool := false
  epochRetired : Bool := false
  tornDown : Bool := false
  closeCode : CloseCode := .none
  reading : Reading := .idle
  /-- The `async_close` of `send_close_frame` is pending. -/
  closeInflight : Bool := false
  log : List Entry := []

/-- The server, and the session whose code runs. -/
structure Turn where
  srv : ServerImpl
  self : Session

/-! ## The server's side -/

namespace ServerImpl

/-- An engine call. -/
def call (cfg : ServerConfig) (srv : ServerImpl) (c : OrderEngine.Call) :
    ServerImpl × List Routed :=
  let r := OrderEngine.step cfg.engine srv.engine c
  ({ srv with engine := r.1, calls := srv.calls ++ [(c, r.2)] }, r.2)

/-- `steady_ns`. -/
def steadyNs (srv : ServerImpl) : ℤ × ServerImpl :=
  (srv.clock srv.readings, { srv with readings := srv.readings + 1 })

/-- `emit_event`. -/
def emitEvent (srv : ServerImpl) (event : TelemetryEvent) (a0 a1 : ℤ) : ServerImpl :=
  let now := srv.steadyNs
  { now.2 with telemetry := srv.telemetry ++ [.event event now.1 a0 a1] }

/-- `settle_snapshot_counters`; `conflatedOf` reads a session's outbox. -/
def settleSnapshotCounters (srv : ServerImpl) (conflatedOf : ℕ → ℕ) : ServerImpl :=
  { srv with
    counters :=
      { srv.counters with
        sessions := srv.sessions.toList.length
        liveOrders := (srv.sessions.toList.map fun p => srv.engine.liveCount p.1).sum
        conflated := srv.conflatedBase + (srv.sessions.toList.map fun p => conflatedOf p.2).sum
        staleBooksIgnored := srv.engine.staleBooksIgnored } }

/-- `push_snapshot`; also `push_final_snapshot`, when the ring has room. -/
def pushSnapshot (srv : ServerImpl) (conflatedOf : ℕ → ℕ) : ServerImpl :=
  let settled := srv.settleSnapshotCounters conflatedOf
  let now := settled.steadyNs
  { now.2 with
    telemetry := settled.telemetry ++
      [.counters .totals now.1 settled.counters, .counters .watermarks now.1 settled.counters] }

/-- `finalize`. It runs with an empty map, so no outbox is read. -/
def finalize (srv : ServerImpl) : ServerImpl :=
  if srv.finalized then srv
  else ({ srv with finalized := true } : ServerImpl).pushSnapshot fun _ => 0

/-- `session_closed`. -/
def sessionClosed (srv : ServerImpl) (epoch closeCode sessionConflated : ℕ) : ServerImpl :=
  let folded := { srv with conflatedBase := srv.conflatedBase + sessionConflated }
  let told := folded.emitEvent .sessionClose epoch closeCode
  let erased := { told with sessions := told.sessions.erase epoch }
  if erased.stopping && erased.sessions.toList.isEmpty then erased.finalize else erased

end ServerImpl

namespace Session

variable (cfg : ServerConfig) (codec : Codec)

/-- `Session::Session`. -/
def create : Session := { outbox := { reportHwm := cfg.reportHwm } }

/-! ## Closing -/

/-- `retire_epoch`. -/
def retireEpoch (t : Turn) : Turn :=
  if t.self.epochRetired then t
  else
    let r := t.srv.call cfg (.endSession t.self.epoch)
    { srv := r.1, self := { t.self with retiredAcks := r.2.length, epochRetired := true } }

/-- `latch_close`: the first latch keeps its code. -/
def latchClose (code : CloseCode) (drain : Bool) (t : Turn) : Turn × Bool :=
  if t.self.closing || t.self.tornDown then (t, false)
  else
    (retireEpoch cfg
      { t with
        self :=
          { t.self with
            closing := true
            closeCode := code
            drainThenClose := drain
            log := t.self.log ++ [.latched code] } },
      true)

/-- `send_close_frame`. -/
def sendCloseFrame (t : Turn) : Turn :=
  if t.self.closeFrameSent || t.self.tornDown || t.self.writeInflight then t
  else
    { t with
      self :=
        { t.self with
          closeFrameSent := true
          closeInflight := true
          log := t.self.log ++ [.closeFrame] } }

/-- Fold the lag of the current write into its watermark. -/
def noteSendLag (t : Turn) : Turn :=
  let now := t.srv.steadyNs
  let lag := (now.1 - t.self.writeStartNs).toNat
  { t with
    srv :=
      { now.2 with
        counters :=
          { now.2.counters with sendLagMaxNs := max now.2.counters.sendLagMaxNs lag } } }

/-- `teardown`. -/
def teardown (recordedCode : ℕ) (t : Turn) : Turn :=
  if t.self.tornDown then t
  else
    let t : Turn :=
      { t with self := { t.self with tornDown := true, log := t.self.log ++ [.closed recordedCode] }
        }
    -- the write in flight would be lost to the watermark otherwise
    let t := if t.self.writeInflight then noteSendLag t else t
    let t := retireEpoch cfg t
    { t with srv := t.srv.sessionClosed t.self.epoch recordedCode t.self.outbox.conflated }

/-! ## Writing -/

/-- The stamps of the write path: the envelope, and on an ack the oldest pending service time.
Also what is then left of these. -/
def stampMsg (seq epoch : ℕ) (pendingSvc : List ℤ) (msg : OutMsg) : OutMsg × List ℤ :=
  match msg.stamp seq epoch, pendingSvc with
  | .orderAck ack, svc :: rest => (.orderAck { ack with svcNs := svc }, rest)
  | stamped, pendingSvc => (stamped, pendingSvc)

/-- Hand a frame to `async_write`. -/
def writeFrame (t : Turn) (frame : OutMsg) : Turn :=
  let now := t.srv.steadyNs
  let srv :=
    match frame with
    | .tob tob =>
      if cfg.telemetryVerbose then now.2.emitEvent .tobOut t.self.epoch tob.mdSeq else now.2
    | _ => now.2
  { srv
    self :=
      { t.self with
        writeInflight := true
        writeStartNs := now.1
        log := t.self.log ++ [.wrote frame] } }

/-- Stamp, encode and write a popped message; an empty encoding closes the session. -/
def writeMsg (t : Turn) (msg : OutMsg) : Turn :=
  let stamped := stampMsg t.self.outSeq t.self.epoch t.self.pendingSvc msg
  let t := { t with self := { t.self with outSeq := t.self.outSeq + 1, pendingSvc := stamped.2 } }
  if codec.encode stamped.1 = [] then sendCloseFrame (latchClose cfg .internalError false t).1
  else writeFrame cfg t stamped.1

/-- The loop of `pump`. It goes round only past a discarded tick, so `depth + 1` rounds do. -/
def pumpLoop : ℕ → Turn → Turn
  | 0, t => t
  | fuel + 1, t =>
    match t.self.outbox.pop with
    | none => if t.self.closing then sendCloseFrame t else t
    | some (.tob tob, outbox) =>
      if t.self.closing then
        pumpLoop fuel
          { t with self := { t.self with outbox, log := t.self.log ++ [.discarded tob.mdSeq] } }
      else writeMsg cfg codec { t with self := { t.self with outbox } } (.tob tob)
    | some (msg, outbox) => writeMsg cfg codec { t with self := { t.self with outbox } } msg

/-- `pump`. -/
def pump (t : Turn) : Turn :=
  if t.self.writeInflight || t.self.tornDown || t.self.closeFrameSent then t
  else if t.self.closing && !t.self.drainThenClose then sendCloseFrame t
  else pumpLoop cfg codec (t.self.outbox.depth + 1) t

/-- `begin_close`: the policy closes drain the outbox first. -/
def beginClose (code : CloseCode) (t : Turn) : Turn :=
  let latched := latchClose cfg code (code = .policyError || code = .goingAway) t
  if latched.2 then pump cfg codec latched.1 else latched.1

/-! ## Queueing -/

/-- `mark_outbox_depth`. -/
def markOutboxDepth (t : Turn) : Turn :=
  let hw := max t.srv.counters.outboxDepthHw t.self.outbox.depth
  { t with srv := { t.srv with counters := { t.srv.counters with outboxDepthHw := hw } } }

/-- `check_policy_closes`. -/
def checkPolicyCloses (t : Turn) : Turn :=
  if t.self.closing then t
  else if t.self.outbox.reportHwmBreached then
    beginClose cfg codec .policyError
      { t with srv := t.srv.emitEvent .hwmClose t.self.epoch t.self.outbox.depth }
  else if t.srv.engine.entryCapBreached cfg.engine t.self.epoch then
    beginClose cfg codec .policyError
      { t with
        srv := t.srv.emitEvent .entryCapClose t.self.epoch (t.srv.engine.entryCount t.self.epoch) }
  else t

/-- Queue a report. -/
def pushReport (msg : OutMsg) (cause : Cause) (x : Session) : Session :=
  let outbox := x.outbox.pushReport msg
  { x with outbox, log := x.log ++ [.enqueued msg cause outbox.reports.length] }

/-- `enqueue_report`. -/
def enqueueReport (msg : OutMsg) (cause : Cause) (t : Turn) : Turn :=
  checkPolicyCloses cfg codec (markOutboxDepth { t with self := pushReport msg cause t.self })

/-- `enqueue_tob`. -/
def enqueueTob (tob : Tob) (t : Turn) : Turn :=
  markOutboxDepth
    { t with
      self :=
        { t.self with
          outbox := t.self.outbox.pushTob tob
          log := t.self.log ++ [.ticked tob.mdSeq] } }

/-- `deliver_report`, for a fill of the book `mdSeq`. -/
def deliverReport (msg : OutMsg) (mdSeq : ℕ) (t : Turn) : Turn :=
  if t.self.tornDown then t
  else pump cfg codec (enqueueReport cfg codec msg (.book mdSeq) t)

/-- `deliver_tob`. -/
def deliverTob (tob : Tob) (t : Turn) : Turn :=
  if t.self.tornDown || t.self.closing then t
  else pump cfg codec (enqueueTob tob t)

/-! ## Reading -/

/-- Every reject code, in the order of the enumerators. -/
def rejectCodes : List RejectCode :=
  [.unsupportedVersion, .unknownType, .malformed, .msgTooLarge, .unknownSymbol, .badSide, .tickSize,
    .lotSize, .qtyLimit, .priceRange, .dupClOrdId, .postOnlyCross, .maxLiveOrders, .unknownClOrdId,
    .alreadyTerminal, .staleEpoch]

/-- `reject_code_from_wire`. -/
def rejectCodeFromWire (wire : Bytes) : Option RejectCode :=
  rejectCodes.find? fun code => code.toString = wire

/-- `emit_reject_event`: one narration per code and window. -/
def emitRejectEvent (code : RejectCode) (t : Turn) : Turn :=
  let now := t.srv.steadyNs
  let self :=
    if rejectCoalesceWindow ≤ now.1 - t.self.rejectLatchNs then
      { t.self with rejectLatch := [], rejectLatchNs := now.1 }
    else t.self
  if code ∈ self.rejectLatch then { srv := now.2, self }
  else
    { srv := now.2.emitEvent .reject self.epoch (rejectCodes.idxOf code)
      self := { self with rejectLatch := code :: self.rejectLatch } }

/-- Count a reject. -/
def countReject (t : Turn) : Turn :=
  let rejects := t.srv.counters.rejects + 1
  { t with srv := { t.srv with counters := { t.srv.counters with rejects } } }

/-- `push_reject`. -/
def pushReject (reject : Reject) (code : RejectCode) (t : Turn) : Turn :=
  enqueueReport cfg codec (.reject reject) .session (emitRejectEvent code (countReject t))

/-- The counters of a reply to `on_new`; an ack's service time is kept until it is stamped. -/
def noteNewReply (svc : ℤ) (report : OutMsg) (t : Turn) : Turn :=
  match report with
  | .orderAck _ =>
    { srv :=
        { t.srv with counters := { t.srv.counters with orders := t.srv.counters.orders + 1 } }
      self := { t.self with pendingSvc := t.self.pendingSvc ++ [svc] } }
  | .reject reject =>
    match rejectCodeFromWire reject.code with
    | some code => emitRejectEvent code (countReject t)
    | none => countReject t
  | _ => t

/-- The counters of a reply to `on_cancel`. -/
def noteCancelReply (report : OutMsg) (t : Turn) : Turn :=
  match report with
  | .cancelAck _ =>
    { t with
      srv := { t.srv with counters :=
        { t.srv.counters with cancels := t.srv.counters.cancels + 1 } } }
  | .reject reject =>
    match rejectCodeFromWire reject.code with
    | some code => emitRejectEvent code (countReject t)
    | none => countReject t
  | _ => t

/-- Narrate a served command. -/
def emitCmdIn (svc : ℤ) (t : Turn) : Turn :=
  if cfg.telemetryVerbose then { t with srv := t.srv.emitEvent .cmdIn t.self.epoch svc } else t

/-- The `NewOrder` arm of `on_command`: call the engine and queue its replies. -/
def serveNew (order : NewOrder) (e1Ns : ℤ) (t : Turn) : Turn :=
  let r := t.srv.call cfg (.onNew t.self.epoch order)
  let now := r.1.steadyNs
  let svc := now.1 - e1Ns
  emitCmdIn cfg svc
    ((r.2.map Routed.msg).foldl
      (fun t report =>
        enqueueReport cfg codec report (.command (.newOrder order) svc) (noteNewReply svc report t))
      { t with srv := now.2 })

/-- The `CancelOrder` arm of `on_command`. -/
def serveCancel (cancel : CancelOrder) (e1Ns : ℤ) (t : Turn) : Turn :=
  let r := t.srv.call cfg (.onCancel t.self.epoch cancel)
  let now := r.1.steadyNs
  let svc := now.1 - e1Ns
  emitCmdIn cfg svc
    ((r.2.map Routed.msg).foldl
      (fun t report =>
        enqueueReport cfg codec report (.command (.cancelOrder cancel) svc)
          (noteCancelReply report t))
      { t with srv := now.2 })

/-- `on_command`. -/
def onCommand (msg : InMsg) (e1Ns : ℤ) (t : Turn) : Turn :=
  if msg.seq ≠ t.self.inSeqExpected then beginClose cfg codec .protocolError t
  else
    let t := { t with self := { t.self with inSeqExpected := t.self.inSeqExpected + 1 } }
    if msg.epoch ≠ t.self.epoch then
      pushReject cfg codec
        { clId := msg.clId
          code := RejectCode.staleEpoch.toString
          reason := ascii "command epoch does not match this session's epoch" }
        .staleEpoch t
    else
      match msg with
      | .newOrder order => serveNew cfg codec order e1Ns t
      | .cancelOrder cancel => serveCancel cfg codec cancel e1Ns t

/-- `on_message`. -/
def onMessage (frame : Bytes) (t : Turn) : Turn :=
  if frame.length > maxInboundMsgBytes then
    pump cfg codec
      (pushReject cfg codec
        { clId := []
          code := RejectCode.msgTooLarge.toString
          reason := ascii "message exceeds the 65536-byte cap" }
        .msgTooLarge t)
  else
    match codec.decode frame with
    | .error err =>
      pump cfg codec
        (pushReject cfg codec { clId := [], code := err.code.toString, reason := err.detail }
          err.code t)
    | .ok msg =>
      let e1 := t.srv.steadyNs
      pump cfg codec (onCommand cfg codec msg e1.1 { t with srv := e1.2 })

/-- `read_next`. -/
def readNext (t : Turn) : Turn := { t with self := { t.self with reading := .message } }

/-- `start`. -/
def start (epoch : ℕ) (t : Turn) : Turn := readNext { t with self := { t.self with epoch } }

/-- What a WebSocket read completes with. -/
inductive ReadResult
  /-- The closing handshake is done; the peer's code, zero for none. -/
  | closed (peer : ℕ)
  | timeout
  | aborted
  | messageTooBig
  | protocolViolation (badPayload : Bool)
  /-- Any other error. -/
  | failed
  | binary
  | text (frame : Bytes)

/-- The code of a close under way, else the given one. -/
def closeCodeOr (x : Session) (code : ℕ) : ℕ := if x.closing then x.closeCode.toNat else code

/-- A frame has arrived. -/
def onFrame (frame : Option Bytes) (t : Turn) : Turn :=
  let t := { t with srv := t.srv.steadyNs.2 }
  if t.self.closing then readNext t
  else
    match frame with
    | none => readNext (beginClose cfg codec .protocolError t)
    | some frame => readNext (onMessage cfg codec frame t)

/-- The read failed past the transport ceiling: the stream has sent its own close frame. -/
def onMessageTooBig (t : Turn) : Turn :=
  let latched := latchClose cfg .tooBig false t
  if latched.2 then
    { latched.1 with
      self :=
        { latched.1.self with
          closeFrameSent := true
          reading := .closing
          log := latched.1.self.log ++ [.closeFrame] } }
  else teardown cfg latched.1.self.closeCode.toNat latched.1

/-- `on_read`. -/
def onRead (result : ReadResult) (t : Turn) : Turn :=
  let t := { t with self := { t.self with reading := .idle } }
  if t.self.tornDown then t
  else
    match result with
    | .closed peer => teardown cfg (closeCodeOr t.self (if peer = 0 then 1000 else peer)) t
    | .timeout => teardown cfg (closeCodeOr t.self 1001) t
    | .aborted => teardown cfg (closeCodeOr t.self 1001) t
    | .messageTooBig => onMessageTooBig cfg t
    | .protocolViolation badPayload =>
      teardown cfg (closeCodeOr t.self (if badPayload then 1007 else 1002)) t
    | .failed => teardown cfg (closeCodeOr t.self 1006) t
    | .binary => onFrame cfg codec none t
    | .text frame => onFrame cfg codec (some frame) t

/-- `drain_transport`, when the close of an oversize frame completes. -/
def drainTransport (t : Turn) : Turn :=
  if t.self.tornDown then { t with self := { t.self with reading := .idle } }
  else { t with self := { t.self with reading := .drain } }

/-- `drain_read`'s completion. -/
def onDrainRead (ok : Bool) (t : Turn) : Turn :=
  if ok then t
  else teardown cfg t.self.closeCode.toNat { t with self := { t.self with reading := .idle } }

/-- The completion of the close that `send_close_frame` started. -/
def onCloseFrame (ok : Bool) (t : Turn) : Turn :=
  let t := { t with self := { t.self with closeInflight := false } }
  if ok then t else teardown cfg t.self.closeCode.toNat t

/-- What a write completes with. -/
inductive WriteResult
  | ok
  | timeout
  | aborted
  | failed

/-- `on_write`. -/
def onWrite (result : WriteResult) (t : Turn) : Turn :=
  let t := { t with self := { t.self with writeInflight := false } }
  if t.self.tornDown then t
  else
    let t := noteSendLag t
    match result with
    | .ok => pump cfg codec t
    | .timeout => teardown cfg (closeCodeOr t.self 1001) t
    | .aborted => teardown cfg (closeCodeOr t.self 1001) t
    | .failed => teardown cfg (closeCodeOr t.self 1006) t

end Session

end MarketMaker
