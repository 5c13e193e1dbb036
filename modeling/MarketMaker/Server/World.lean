import MarketMaker.Server.Session

/-!
# The server

`ServerImpl` (`server.cpp`, `server_accept.cpp`) with every object its handlers keep alive. The
event loop runs one handler at a time: a turn. A `World` is the state between turns, an `Event` is
the completion of a pending operation and `step` is its handler. A completion whose operation is
not pending changes nothing.

Objects are named by their position in the order of creation: `shared_ptr`s to sessions and
upgrades are such positions. A session object outlives its entry in `sessions_`.
-/

namespace MarketMaker

/-- A `PendingUpgrade`, by the handler that keeps it alive. -/
inductive Upgrade
  /-- The HTTP request is being read. -/
  | reading
  /-- The refusal is being written. -/
  | refusing
  /-- The WebSocket handshake of a session object is in flight. -/
  | handshaking (session : ℕ)
  | released
  deriving DecidableEq, Repr

/-- What the gates of `on_upgrade_request` read of a request. -/
structure UpgradeRequest where
  isUpgrade : Bool
  offersMmV1 : Bool
  hasOrigin : Bool
  deriving DecidableEq, Repr

/-- The server and its objects, between turns. -/
structure World where
  srv : ServerImpl
  heap : List Session := []
  pending : List Upgrade := []

namespace World

variable (cfg : ServerConfig) (codec : Codec)

/-- The server right after `run` has armed its first operations. -/
def init (clock : ℕ → ℤ) : World := { srv := { clock } }

/-- Run a session's code on the object at `i`. -/
def on (w : World) (i : ℕ) (f : Turn → Turn) : World :=
  match w.heap[i]? with
  | some x =>
    let t := f ⟨w.srv, x⟩
    { w with srv := t.srv, heap := w.heap.set i t.self }
  | none => w

/-! ## Stopping -/

/-- Close every open session as going away. -/
def closeAll (w : World) : World :=
  w.srv.sessions.toList.foldl (fun w p => w.on p.2 (Session.beginClose cfg codec .goingAway)) w

/-- `begin_stop`. Aborting the pending upgrades makes their completions come. -/
def beginStop (w : World) : World :=
  if w.srv.stopping then w
  else
    let stopped : World := { w with srv := { w.srv with stopping := true, acceptorOpen := false } }
    if stopped.srv.sessions.toList.isEmpty then { stopped with srv := stopped.srv.finalize }
    else stopped.closeAll cfg codec

/-! ## The feed -/

/-- Route one report of a book. -/
def route (mdSeq : ℕ) (w : World) (report : Routed) : World :=
  let w : World :=
    match report.msg with
    | .fill _ =>
      { w with
        srv := { w.srv with counters := { w.srv.counters with fills := w.srv.counters.fills + 1 } }
          }
    | _ => w
  match w.srv.sessions.find? report.session with
  | some i => w.on i (Session.deliverReport cfg codec report.msg mdSeq)
  | none => w

/-- A report is counted if it is a fill, and delivered if its session is there. -/
theorem route_cases (mdSeq : ℕ) (w : World) (report : Routed) :
    ∃ counted : World,
      (counted = w ∨ counted = { w with
        srv := { w.srv with counters := { w.srv.counters with fills := w.srv.counters.fills + 1 } }
          }) ∧
      (w.route cfg codec mdSeq report = counted ∨
        ∃ i, w.route cfg codec mdSeq report =
          counted.on i (Session.deliverReport cfg codec report.msg mdSeq)) := by
  obtain ⟨session, msg⟩ := report
  cases hfind : w.srv.sessions.find? session with
  | none =>
    cases msg with
    | fill _ => exact ⟨_, Or.inr rfl, Or.inl (by simp only [route, hfind])⟩
    | tob _ => exact ⟨_, Or.inl rfl, Or.inl (by simp only [route, hfind])⟩
    | orderAck _ => exact ⟨_, Or.inl rfl, Or.inl (by simp only [route, hfind])⟩
    | cancelAck _ => exact ⟨_, Or.inl rfl, Or.inl (by simp only [route, hfind])⟩
    | reject _ => exact ⟨_, Or.inl rfl, Or.inl (by simp only [route, hfind])⟩
  | some i =>
    cases msg with
    | fill _ => exact ⟨_, Or.inr rfl, Or.inr ⟨i, by simp only [route, hfind]⟩⟩
    | tob _ => exact ⟨_, Or.inl rfl, Or.inr ⟨i, by simp only [route, hfind]⟩⟩
    | orderAck _ => exact ⟨_, Or.inl rfl, Or.inr ⟨i, by simp only [route, hfind]⟩⟩
    | cancelAck _ => exact ⟨_, Or.inl rfl, Or.inr ⟨i, by simp only [route, hfind]⟩⟩
    | reject _ => exact ⟨_, Or.inl rfl, Or.inr ⟨i, by simp only [route, hfind]⟩⟩

/-- The tick of a book. -/
def tobOf (book : Book) : Tob :=
  { mdSeq := book.mdSeq, symbol := cfg.engine.inst.symbol, bidPx := book.bidPx,
    bidQty := book.bidQty, askPx := book.askPx, askQty := book.askQty }

/-- The fan-out of a tick; `deliver_tob` erases no entry while it goes. -/
def fanOut (tob : Tob) (w : World) : World :=
  w.srv.sessions.toList.foldl (fun w p => w.on p.2 (Session.deliverTob cfg codec tob)) w

/-- `publish_book`: the fills of the book, then its tick. -/
def publishBook (w : World) (bidPx bidQty askPx askQty : ℤ) : World :=
  let mdSeq := w.srv.nextMdSeq + 1
  let book : Book := { bidPx, bidQty, askPx, askQty, mdSeq }
  let srv := { w.srv with nextMdSeq := mdSeq }
  let r := srv.steadyNs.2.call cfg (.onBook book)
  let routed := r.2.foldl (route cfg codec mdSeq) { w with srv := r.1 }
  routed.fanOut cfg codec (tobOf cfg book)

/-- `on_feed_event`. -/
def onFeedEvent (w : World) : World :=
  if w.srv.stopping then w
  else
    let exhausted := w.srv.feedIndex ≥ cfg.feed.length
    if exhausted && !(cfg.loopFeed && !cfg.feed.isEmpty) then w.beginStop cfg codec
    else
      let index := if exhausted then 0 else w.srv.feedIndex
      let w : World := { w with srv := { w.srv with feedIndex := index + 1 } }
      match cfg.feed[index]? with
      | some (.set bidPx bidQty askPx askQty) =>
        w.publishBook cfg codec bidPx bidQty askPx askQty
      | some (.halt _) => w
      | some .drop => w.closeAll cfg codec
      | some .finish => w.beginStop cfg codec
      | none => w

/-! ## Accepting -/

/-- `live_upgrades`: drop the expired references. -/
def pruneUpgrades (w : World) : World :=
  { w with
    srv :=
      { w.srv with
        upgrades := w.srv.upgrades.filter fun i => w.pending[i]?.getD .released ≠ .released } }

/-- The handler of `accept_next`. -/
def onAccept (ok : Bool) (w : World) : World :=
  if !ok then
    if w.srv.stopping || !w.srv.acceptorOpen then
      { w with srv := { w.srv with accepting := false } }
    else w
  else
    let w := w.pruneUpgrades
    let inFlight := w.srv.upgrades.length
    if !w.srv.stopping && inFlight ≥ cfg.maxSessions then
      { w with srv := w.srv.emitEvent .admissionRefused inFlight 0 }
    else if !w.srv.stopping then
      { w with
        srv := { w.srv with upgrades := w.srv.upgrades ++ [w.pending.length] }
        pending := w.pending ++ [.reading] }
    else w

/-- `refuse_upgrade`. -/
def refuseUpgrade (i : ℕ) (status reason : ℕ) (w : World) : World :=
  { w with
    srv := w.srv.emitEvent .upgradeRefused status reason
    pending := w.pending.set i .refusing }

/-- The handler of the HTTP read; `none` is a failed read. -/
def onUpgradeRequest (i : ℕ) (request : Option UpgradeRequest) (w : World) : World :=
  match request with
  | none => { w with pending := w.pending.set i .released }
  | some req =>
    if w.srv.stopping then { w with pending := w.pending.set i .released }
    else if !req.isUpgrade || !req.offersMmV1 then w.refuseUpgrade i 400 0
    else if req.hasOrigin then w.refuseUpgrade i 403 1
    else
      let w := w.pruneUpgrades
      let load := w.srv.sessions.toList.length + w.srv.upgrades.length
      if load > cfg.maxSessions then
        { w with srv := w.srv.emitEvent .admissionRefused load 1 }.refuseUpgrade i 503 2
      else
        { srv := { w.srv with handshaking := w.srv.handshaking ++ [w.heap.length] }
          heap := w.heap ++ [Session.create cfg]
          pending := w.pending.set i (.handshaking w.heap.length) }

/-- The handler of the WebSocket accept of the session at `j`. -/
def onHandshake (i j : ℕ) (ok : Bool) (w : World) : World :=
  let w : World :=
    { w with
      srv := { w.srv with handshaking := w.srv.handshaking.filter (· ≠ j) }
      pending := w.pending.set i .released }
  if !ok || w.srv.stopping then w
  else
    let epoch := w.srv.nextEpoch + 1
    let sessions := w.srv.sessions.insert epoch j
    let srv :=
      { w.srv with
        nextEpoch := epoch, sessions, peakSessions :=
          max w.srv.peakSessions sessions.toList.length }
    { w with srv := srv.emitEvent .sessionOpen epoch 0 }.on j (Session.start epoch)

/-! ## Turns -/

/-- A completion. -/
inductive Event
  | accept (ok : Bool)
  | upgradeRequest (i : ℕ) (request : Option UpgradeRequest)
  | refusalWritten (i : ℕ)
  | handshake (i : ℕ) (ok : Bool)
  | read (i : ℕ) (result : Session.ReadResult)
  | write (i : ℕ) (result : Session.WriteResult)
  /-- The close that `send_close_frame` started. -/
  | closeFrame (i : ℕ) (ok : Bool)
  /-- The close of an oversize frame, whatever its result. -/
  | oversizeClose (i : ℕ)
  | drainRead (i : ℕ) (ok : Bool)
  | feed
  | snapshot
  | stop

/-- The object at `i` is a session that satisfies `p`. -/
def sessionIs (w : World) (i : ℕ) (p : Session → Bool) : Bool :=
  match w.heap[i]? with
  | some x => p x
  | none => false

/-- One turn. -/
def step (w : World) : Event → World
  | .accept ok => if w.srv.accepting then w.onAccept cfg ok else w
  | .upgradeRequest i request =>
    if w.pending[i]? = some .reading then w.onUpgradeRequest cfg i request else w
  | .refusalWritten i =>
    if w.pending[i]? = some .refusing then { w with pending := w.pending.set i .released } else w
  | .handshake i ok =>
    match w.pending[i]? with
    | some (.handshaking j) => w.onHandshake i j ok
    | _ => w
  | .read i result =>
    if w.sessionIs i (·.reading = .message) then w.on i (Session.onRead cfg codec result) else w
  | .write i result =>
    if w.sessionIs i (·.writeInflight) then w.on i (Session.onWrite cfg codec result) else w
  | .closeFrame i ok =>
    if w.sessionIs i (·.closeInflight) then w.on i (Session.onCloseFrame cfg ok) else w
  | .oversizeClose i =>
    if w.sessionIs i (·.reading = .closing) then w.on i Session.drainTransport else w
  | .drainRead i ok =>
    if w.sessionIs i (·.reading = .drain) then w.on i (Session.onDrainRead cfg ok) else w
  | .feed => w.onFeedEvent cfg codec
  | .snapshot =>
    if w.srv.stopping then w
    else
      { w with
        srv := w.srv.pushSnapshot fun i =>
          match w.heap[i]? with
          | some x => x.outbox.conflated
          | none => 0 }
  | .stop => w.beginStop cfg codec

/-- The state after a run of turns. -/
def run (clock : ℕ → ℤ) (events : List Event) : World :=
  events.foldl (step cfg codec) (init clock)

/-- A state between turns of some run. -/
def Reachable (w : World) : Prop := ∃ clock events, run cfg codec clock events = w

end World

end MarketMaker
