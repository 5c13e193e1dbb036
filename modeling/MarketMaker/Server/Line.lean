import MarketMaker.Server.World
import Mathlib.Logic.Relation

/-!
# What can happen to a session

The abstract machine under the server. A `Line` is a session without its gauges and timers, a `Hub`
is the part of the server that sessions share, and a `Net` is the hub with every line ever created.

`Drain` lists the steps that emptying an outbox and closing are made of, `Act` the steps of a
session's turn, `Move` those of the net and `NetStep` adds the books, each with the guard under
which the code takes it. `Server.Refine` and `Server.Run` show that every turn of the server is a
sequence of such steps, so that an invariant of the net is checked once per step, not once per
handler.
-/

namespace MarketMaker

open OrderEngine (Call)

/-! ## States -/

/-- The part of the server that sessions share. -/
structure Hub where
  engine : OrderEngine := {}
  sessions : OrderedMap ℕ ℕ := .empty
  nextMdSeq : ℕ := 0
  nextEpoch : ℕ := 0
  calls : List (Call × List Routed) := []

/-- A session, without what only feeds gauges, timers and pending reads. -/
@[ext]
structure Line where
  epoch : ℕ := 0
  outbox : Outbox
  outSeq : ℕ := 1
  pendingSvc : List ℤ := []
  writeInflight : Bool := false
  closing : Bool := false
  drainThenClose : Bool := false
  closeFrameSent : Bool := false
  epochRetired : Bool := false
  tornDown : Bool := false
  closeCode : CloseCode := .none
  log : List Entry := []

/-- The hub, and the line whose turn it is. -/
structure View where
  hub : Hub
  line : Line

/-- The hub, and every line ever created. -/
structure Net where
  hub : Hub := {}
  lines : List Line := []

def ServerImpl.hub (srv : ServerImpl) : Hub :=
  ⟨srv.engine, srv.sessions, srv.nextMdSeq, srv.nextEpoch, srv.calls⟩

def Session.line (x : Session) : Line :=
  ⟨x.epoch, x.outbox, x.outSeq, x.pendingSvc, x.writeInflight, x.closing, x.drainThenClose,
    x.closeFrameSent, x.epochRetired, x.tornDown, x.closeCode, x.log⟩

def Turn.view (t : Turn) : View := ⟨t.srv.hub, t.self.line⟩

def World.net (w : World) : Net := ⟨w.srv.hub, w.heap.map Session.line⟩

/-- An engine call. -/
def Hub.call (cfg : ServerConfig) (h : Hub) (c : Call) : Hub :=
  { h with
    engine := (OrderEngine.step cfg.engine h.engine c).1
    calls := h.calls ++ [(c, (OrderEngine.step cfg.engine h.engine c).2)] }

/-! ## The log -/

/-- The reports that entered the outbox, with their causes. -/
def enqueuedIn (log : List Entry) : List (OutMsg × Cause) :=
  log.filterMap fun
    | .enqueued msg cause _ => some (msg, cause)
    | _ => none

/-- The frames handed to `async_write`. -/
def framesIn (log : List Entry) : List OutMsg :=
  log.filterMap fun
    | .wrote frame => some frame
    | _ => none

/-- The ticks that entered the outbox. -/
def ticksIn (log : List Entry) : List ℕ :=
  log.filterMap fun
    | .ticked mdSeq => some mdSeq
    | _ => none

theorem enqueuedIn_append (l l' : List Entry) :
    enqueuedIn (l ++ l') = enqueuedIn l ++ enqueuedIn l' :=
  List.filterMap_append

theorem framesIn_append (l l' : List Entry) : framesIn (l ++ l') = framesIn l ++ framesIn l' :=
  List.filterMap_append

theorem ticksIn_append (l l' : List Entry) : ticksIn (l ++ l') = ticksIn l ++ ticksIn l' :=
  List.filterMap_append

/-! ## Effects -/

/-- The closes that let the queued reports out first. -/
def CloseCode.drains : CloseCode → Bool
  | .policyError => true
  | .goingAway => true
  | _ => false

namespace View

variable (cfg : ServerConfig)

/-- End the session in the engine, once. -/
def retire (v : View) : View :=
  if v.line.epochRetired then v
  else
    { hub := v.hub.call cfg (.endSession v.line.epoch)
      line := { v.line with epochRetired := true } }

/-- A close is latched. -/
def latch (v : View) (code : CloseCode) : View :=
  ({ v with
      line :=
        { v.line with
          closing := true
          closeCode := code
          drainThenClose := code.drains
          log := v.line.log ++ [.latched code] } } : View).retire cfg

/-- A message leaves the outbox and takes its stamps. -/
def stamp (v : View) (msg : OutMsg) (outbox : Outbox) : View :=
  { v with
    line :=
      { v.line with
        outbox
        outSeq := v.line.outSeq + 1
        pendingSvc :=
          (Session.stampMsg v.line.outSeq v.line.epoch v.line.pendingSvc msg).2 } }

/-- A frame is handed to `async_write`. -/
def write (v : View) (frame : OutMsg) : View :=
  { v with line := { v.line with writeInflight := true, log := v.line.log ++ [.wrote frame] } }

/-- A popped tick is dropped. -/
def discard (v : View) (tob : Tob) (outbox : Outbox) : View :=
  { v with
    line :=
      { v.line with
        outbox
        log := v.line.log ++ [.discarded tob.mdSeq] } }

/-- The close frame is started. -/
def sendClose (v : View) : View :=
  { v with line := { v.line with closeFrameSent := true, log := v.line.log ++ [.closeFrame] } }

/-- The service time that a queued report waits for. -/
def svcOf : OutMsg × Cause → Option ℤ
  | (.orderAck _, .command _ svc) => some svc
  | _ => none

/-- A report enters the outbox. -/
def push (v : View) (msg : OutMsg) (cause : Cause) : View :=
  { v with
    line :=
      { v.line with
        outbox := v.line.outbox.pushReport msg
        pendingSvc := v.line.pendingSvc ++ (svcOf (msg, cause)).toList
        log := v.line.log ++
          [.enqueued msg cause (v.line.outbox.pushReport msg).reports.length] } }

/-- A tick enters the outbox. -/
def tick (v : View) (tob : Tob) : View :=
  { v with
    line :=
      { v.line with
        outbox := v.line.outbox.pushTob tob
        log := v.line.log ++ [.ticked tob.mdSeq] } }

/-- The write in flight has completed. -/
def written (v : View) : View := { v with line := { v.line with writeInflight := false } }

/-- The session leaves the map. -/
def tearDown (v : View) (code : ℕ) : View :=
  let v := ({ v with
    line := { v.line with tornDown := true, log := v.line.log ++ [.closed code] } } : View).retire
      cfg
  { v with hub := { v.hub with sessions := v.hub.sessions.erase v.line.epoch } }

/-! Whether or not the epoch was retired before, it is after. -/

variable (v : View)

theorem line_retire : (v.retire cfg).line = { v.line with epochRetired := true } := by
  unfold retire
  split_ifs with h
  · rw [← h]
  · rfl

theorem line_latch (code : CloseCode) :
    (v.latch cfg code).line =
      { v.line with
        closing := true
        closeCode := code
        drainThenClose := code.drains
        epochRetired := true
        log := v.line.log ++ [.latched code] } := by
  rw [latch, line_retire]

theorem line_tearDown (code : ℕ) :
    (v.tearDown cfg code).line =
      { v.line with
        tornDown := true
        epochRetired := true
        log := v.line.log ++ [.closed code] } := by
  simp only [tearDown, line_retire]

end View

/-! ## Steps -/

section Steps

variable (cfg : ServerConfig) (codec : Codec)

/-- The most reports an outbox ever holds. -/
def ServerConfig.backlog : ℕ := cfg.reportHwm + max 1 cfg.engine.inst.maxLiveOrders.toNat

/-- The steps of emptying an outbox and of closing. -/
inductive Drain (v : View) : View → Prop
  | latch (code : CloseCode) (notClosing : v.line.closing = false)
      (up : v.line.tornDown = false) : Drain v (v.latch cfg code)
  | write {msg : OutMsg} {outbox : Outbox} (popped : v.line.outbox.pop = some (msg, outbox))
      (idle : v.line.writeInflight = false) (notSent : v.line.closeFrameSent = false)
      (tick : v.line.closing = true → msg.isTob = false)
      (encoded : codec.encode
        (Session.stampMsg v.line.outSeq v.line.epoch v.line.pendingSvc msg).1 ≠ []) :
      Drain v ((v.stamp msg outbox).write
        (Session.stampMsg v.line.outSeq v.line.epoch v.line.pendingSvc msg).1)
  | lose {msg : OutMsg} {outbox : Outbox} (popped : v.line.outbox.pop = some (msg, outbox))
      (failed : codec.encode
        (Session.stampMsg v.line.outSeq v.line.epoch v.line.pendingSvc msg).1 = []) :
      Drain v (v.stamp msg outbox)
  | discard {tob : Tob} {outbox : Outbox} (popped : v.line.outbox.pop = some (.tob tob, outbox))
      (closing : v.line.closing = true) : Drain v (v.discard tob outbox)
  | sendClose (closing : v.line.closing = true) (notSent : v.line.closeFrameSent = false)
      (drained : codec.Total → v.line.drainThenClose = true → v.line.outbox.reports = []) :
      Drain v v.sendClose

/-- Any number of draining steps. -/
abbrev Drains : View → View → Prop := Relation.ReflTransGen (Drain cfg codec)

/-- An `OrderAck` answers a `NewOrder` of its client order id, whose service time was measured. -/
def Answers (msg : OutMsg) (cause : Cause) : Prop :=
  ∀ ack, msg = .orderAck ack →
    ∃ order svc, cause = .command (.newOrder order) svc ∧ ack.clId = order.clId

/-- The guard of a queued report. -/
structure MayPush (v : View) (msg : OutMsg) (cause : Cause) : Prop where
  up : v.line.tornDown = false
  isReport : msg.isTob = false
  answers : Answers msg cause
  notSent : codec.Total → v.line.closeFrameSent = false
  room : v.line.outbox.reports.length < cfg.backlog
  /-- The fills of a book come before its tick. -/
  early : ∀ mdSeq, cause = .book mdSeq → ∀ tick ∈ ticksIn v.line.log, tick < mdSeq

/-- The steps of a session's turn. -/
inductive Act (v : View) : View → Prop
  | drain {v' : View} (drain : Drain cfg codec v v') : Act v v'
  /-- A report is queued and the policy closes are checked at once. -/
  | enqueue {v' : View} {msg : OutMsg} {cause : Cause} (may : MayPush cfg codec v msg cause)
      (checked : Drains cfg codec (v.push msg cause) v')
      (settled : v'.line.outbox.reportHwmBreached = true → v'.line.closing = true) : Act v v'
  /-- The engine serves a command of the session. -/
  | serve {c : Call} (notClosing : v.line.closing = false) (up : v.line.tornDown = false)
      (own : (∃ order, c = .onNew v.line.epoch order) ∨ ∃ cancel,
        c = .onCancel v.line.epoch cancel) :
      Act v { v with hub := v.hub.call cfg c }
  | tick {tob : Tob} (notClosing : v.line.closing = false) (up : v.line.tornDown = false)
      (current : tob.mdSeq = v.hub.nextMdSeq)
      (newer : ∀ tick ∈ ticksIn v.line.log, tick < tob.mdSeq) : Act v (v.tick tob)
  | written : Act v v.written
  | tearDown (code : ℕ) (up : v.line.tornDown = false) : Act v (v.tearDown cfg code)

/-- Any number of steps of a session's turn. -/
abbrev Acts : View → View → Prop := Relation.ReflTransGen (Act cfg codec)

/-- A line nobody has used. -/
def Line.fresh : Line := { outbox := { reportHwm := cfg.reportHwm } }

/-- The steps of the net, apart from books. -/
inductive Move (n : Net) : Net → Prop
  | act {i : ℕ} {l : Line} {v : View} (found : n.lines[i]? = some l) (started : l.epoch ≠ 0)
      (act : Act cfg codec ⟨n.hub, l⟩ v) : Move n ⟨v.hub, n.lines.set i v.line⟩
  | create : Move n { n with lines := n.lines ++ [Line.fresh cfg] }
  | start {j : ℕ} (found : n.lines[j]? = some (Line.fresh cfg)) :
      Move n
        { hub :=
            { n.hub with
              nextEpoch := n.hub.nextEpoch + 1
              sessions := n.hub.sessions.insert (n.hub.nextEpoch + 1) j }
          lines := n.lines.set j { Line.fresh cfg with epoch := n.hub.nextEpoch + 1 } }

/-- Any number of moves. -/
abbrev Moves : Net → Net → Prop := Relation.ReflTransGen (Move cfg codec)

/-- A book is published. -/
def Net.publish (n : Net) (book : Book) : Net :=
  { n with hub := ({ n.hub with nextMdSeq := n.hub.nextMdSeq + 1 } : Hub).call cfg (.onBook book) }

/-- The steps of the net. -/
inductive NetStep (n : Net) : Net → Prop
  | move {n' : Net} (move : Move cfg codec n n') : NetStep n n'
  | publish {book : Book} (next : book.mdSeq = n.hub.nextMdSeq + 1) :
      NetStep n (n.publish cfg book)

/-- Any number of steps of the net. -/
abbrev NetSteps : Net → Net → Prop := Relation.ReflTransGen (NetStep cfg codec)

end Steps

/-! ## What draining leaves alone -/

section Keeps

variable {cfg : ServerConfig} {codec : Codec}

/-- Draining keeps the line's identity and the hub's map, and never undoes a close. -/
structure Keeps (v v' : View) : Prop where
  epoch : v'.line.epoch = v.line.epoch
  tornDown : v'.line.tornDown = v.line.tornDown
  closing : v.line.closing = true → v'.line.closing = true
  reportHwm : v'.line.outbox.reportHwm = v.line.outbox.reportHwm
  breached : v'.line.outbox.reportHwmBreached = v.line.outbox.reportHwmBreached
  reports : v'.line.outbox.reports <:+ v.line.outbox.reports
  enqueued : enqueuedIn v'.line.log = enqueuedIn v.line.log
  ticks : ticksIn v'.line.log = ticksIn v.line.log
  sessions : v'.hub.sessions = v.hub.sessions
  nextMdSeq : v'.hub.nextMdSeq = v.hub.nextMdSeq
  nextEpoch : v'.hub.nextEpoch = v.hub.nextEpoch

theorem Keeps.refl (v : View) : Keeps v v :=
  ⟨rfl, rfl, id, rfl, rfl, List.suffix_refl _, rfl, rfl, rfl, rfl, rfl⟩

theorem Keeps.trans {v v' v'' : View} (h : Keeps v v') (h' : Keeps v' v'') : Keeps v v'' where
  epoch := h'.epoch.trans h.epoch
  tornDown := h'.tornDown.trans h.tornDown
  closing hc := h'.closing (h.closing hc)
  reportHwm := h'.reportHwm.trans h.reportHwm
  breached := h'.breached.trans h.breached
  reports := h'.reports.trans h.reports
  enqueued := h'.enqueued.trans h.enqueued
  ticks := h'.ticks.trans h.ticks
  sessions := h'.sessions.trans h.sessions
  nextMdSeq := h'.nextMdSeq.trans h.nextMdSeq
  nextEpoch := h'.nextEpoch.trans h.nextEpoch

theorem keeps_retire (v : View) : Keeps v (v.retire cfg) := by
  unfold View.retire
  split_ifs
  · exact Keeps.refl v
  · exact ⟨rfl, rfl, id, rfl, rfl, List.suffix_refl _, rfl, rfl, rfl, rfl, rfl⟩

theorem keeps_of_pop {v : View} {msg : OutMsg} {outbox : Outbox}
    (hpop : v.line.outbox.pop = some (msg, outbox)) :
    outbox.reportHwm = v.line.outbox.reportHwm ∧
      outbox.reportHwmBreached = v.line.outbox.reportHwmBreached ∧
      outbox.reports <:+ v.line.outbox.reports := by
  rcases Outbox.pop_cases hpop with ⟨rest, hr, rfl⟩ | ⟨tob, -, -, -, rfl⟩
  · exact ⟨rfl, rfl, hr ▸ List.suffix_cons msg rest⟩
  · exact ⟨rfl, rfl, List.suffix_refl _⟩

theorem keeps_drain {v v' : View} (h : Drain cfg codec v v') : Keeps v v' := by
  cases h with
  | latch code _ _ =>
    refine Keeps.trans ?_ (keeps_retire _)
    exact ⟨rfl, rfl, fun _ => rfl, rfl, rfl, List.suffix_refl _, by simp [enqueuedIn],
      by simp [ticksIn], rfl, rfl, rfl⟩
  | write hpop _ _ _ _ =>
    obtain ⟨hhwm, hbreach, hrest⟩ := keeps_of_pop hpop
    exact ⟨rfl, rfl, id, hhwm, hbreach, hrest, by simp [enqueuedIn, View.write, View.stamp],
      by simp [ticksIn, View.write, View.stamp], rfl, rfl, rfl⟩
  | lose hpop _ =>
    obtain ⟨hhwm, hbreach, hrest⟩ := keeps_of_pop hpop
    exact ⟨rfl, rfl, id, hhwm, hbreach, hrest, rfl, rfl, rfl, rfl, rfl⟩
  | discard hpop _ =>
    obtain ⟨hhwm, hbreach, hrest⟩ := keeps_of_pop hpop
    exact ⟨rfl, rfl, id, hhwm, hbreach, hrest, by simp [enqueuedIn, View.discard],
      by simp [ticksIn, View.discard], rfl, rfl, rfl⟩
  | sendClose _ _ _ =>
    exact ⟨rfl, rfl, id, rfl, rfl, List.suffix_refl _, by simp [enqueuedIn, View.sendClose],
      by simp [ticksIn, View.sendClose], rfl, rfl, rfl⟩

theorem keeps_drains {v v' : View} (h : Drains cfg codec v v') : Keeps v v' := by
  induction h with
  | refl => exact Keeps.refl v
  | tail _ hlast ih => exact ih.trans (keeps_drain hlast)

end Keeps

end MarketMaker
