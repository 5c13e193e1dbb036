import MarketMaker.Bench.Probe
import MarketMaker.Duplex.Basic

/-!
# The probe and the engine, composed

A probe, connected as session `s`, and the engine, with a FIFO channel each way. Commands and
reports are carried as in `Duplex`, with a serial number beside each command and beside the engine's
answer to it, which neither party reads: a run is judged by them. The session driver of the probe
calls `on_connect` at the first message of the connection, with the epoch of the session.
-/

namespace MarketMaker

namespace Harness

open OrderEngine

/-- The two parties and what is in flight between them. -/
structure Rig where
  probe : Probe
  engine : OrderEngine := {}
  /-- Commands on their way to the engine, with their serial numbers. -/
  commands : List (InMsg × ℕ) := []
  /-- Reports on their way to the probe, with the serial number of the command each answers. -/
  reports : List (OutMsg × Option ℕ) := []
  /-- Books published and neither delivered to the probe nor conflated away. -/
  books : List Book := []
  /-- The number of commands sent. -/
  sent : ℕ := 0
  /-- A message has been delivered. -/
  connected : Bool := false
  /-- A method of the probe has raised, which ends the connection. -/
  raised : Bool := false

/-- What a run is judged by. -/
inductive Note
  /-- The probe has sent a command, in a method that read `clockNs`. -/
  | sent (serial : ℕ) (msg : InMsg) (clockNs : ℤ)
  /-- The engine has answered a command. -/
  | answered (serial : ℕ) (out : List OutMsg)
  /-- An answer has reached the probe, in a method that read `clockNs`. -/
  | arrived (serial : ℕ) (msg : OutMsg) (clockNs : ℤ)
  deriving DecidableEq

namespace Rig

/-- What can happen next. -/
inductive Event
  /-- A book reaches the engine and is published. -/
  | book (book : Book)
  /-- Another session calls the engine. -/
  | other (call : Call)
  /-- The oldest command in flight reaches the engine. -/
  | command
  /-- The oldest report in flight reaches the probe. The first reading is the one of `on_connect`,
  should this be the first message. -/
  | report (startNs clockNs : ℤ)
  /-- A tick reaches the probe; the `conflated` older ones never will. -/
  | tob (conflated : ℕ) (startNs clockNs : ℤ)
  | timer (clockNs : ℤ)

variable (cfg : EngineConfig) (s : ℕ)

/-- A call of the engine: its reports for the session are on their way. -/
def call (x : Rig) (c : Call) (serial : Option ℕ) : Rig :=
  { x with
    engine := (OrderEngine.step cfg x.engine c).1
    reports := x.reports ++
      (reportsTo s (OrderEngine.step cfg x.engine c).2).map fun msg => (msg, serial) }

/-- A method of the probe has returned or raised: its commands are on their way. -/
def act (x : Rig) (r : Probe × Option (List InMsg)) (clockNs : ℤ) : Rig × List Note :=
  match r.2 with
  | none => ({ x with probe := r.1, raised := true }, [])
  | some msgs =>
    let numbered := msgs.zipIdx x.sent
    ({ x with
        probe := r.1, commands := x.commands ++ numbered, sent := x.sent + msgs.length },
      numbered.map fun c => .sent c.2 c.1 clockNs)

/-- The first message connects the probe. -/
def connect (x : Rig) (startNs : ℤ) : Rig :=
  if x.connected then x
  else { x with connected := true, probe := x.probe.onConnect s startNs }

/-- Hand a message to the probe. -/
def deliver (x : Rig) (msg : OutMsg) (startNs clockNs : ℤ) : Rig × List Note :=
  let x := x.connect s startNs
  x.act (x.probe.onReport msg clockNs) clockNs

/-- The arrival of an answer. -/
def arrivalOf (report : OutMsg × Option ℕ) (clockNs : ℤ) : List Note :=
  report.2.toList.map fun serial => .arrived serial report.1 clockNs

/-- One event. An event that is not enabled changes nothing. -/
def step (x : Rig) : Event → Rig × List Note
  | .book book =>
    if x.engine.isFresh book then
      ({ x.call cfg s (.onBook book) none with books := x.books ++ [book] }, [])
    else (x, [])
  | .other c => if Duplex.isOther s c then (x.call cfg s c none, []) else (x, [])
  | .command =>
    match x.commands with
    | [] => (x, [])
    | (msg, serial) :: rest =>
      let c := Duplex.callOf s msg
      (({ x with commands := rest } : Rig).call cfg s c serial,
        [.answered serial (reportsTo s (OrderEngine.step cfg x.engine c).2)])
  | .report startNs clockNs =>
    if x.raised then (x, [])
    else
      match x.reports with
      | [] => (x, [])
      | report :: rest =>
        let r := ({ x with reports := rest } : Rig).deliver s report.1 startNs clockNs
        (r.1, arrivalOf report clockNs ++ r.2)
  | .tob conflated startNs clockNs =>
    if x.raised then (x, [])
    else
      match x.books.drop conflated with
      | [] => (x, [])
      | book :: rest =>
        ({ x with books := rest } : Rig).deliver s (Duplex.tobOf cfg book) startNs clockNs
  | .timer clockNs =>
    if x.raised then (x, []) else x.act (x.probe.onTimer clockNs) clockNs

/-- A run of events from the start of the connection, on a fresh engine. -/
abbrev run (probe : Probe) (events : List Event) : Rig × List (Event × List Note) :=
  Mealy.run (step cfg s) { probe } events

end Rig

/-! ## What a run shows -/

/-- A book of the run stays away from the price of a probe. -/
def Rig.Event.IsFar : Rig.Event → Prop
  | .book b => ¬crosses b .bid BID_PX = true
  | _ => True

instance : DecidablePred Rig.Event.IsFar
  | .book b => inferInstanceAs (Decidable ¬crosses b .bid BID_PX = true)
  | .other _ => .isTrue trivial
  | .command => .isTrue trivial
  | .report _ _ => .isTrue trivial
  | .tob _ _ _ => .isTrue trivial
  | .timer _ => .isTrue trivial

/-- The notes of a history, in order. -/
def observed (history : List (Rig.Event × List Note)) : List Note := history.flatMap (·.2)

/-- A command that is timed, and the reading at which it was sent. -/
structure TimedCommand where
  serial : ℕ
  msg : InMsg
  sentNs : ℤ
  deriving DecidableEq

/-- React times its new orders only. -/
def isTimed (mode : Mode) : InMsg → Bool
  | .newOrder _ => true
  | .cancelOrder _ => mode ≠ .react

/-- The timed commands, in the order they were sent. -/
def timed (mode : Mode) (notes : List Note) : List TimedCommand :=
  notes.filterMap fun
    | .sent serial msg sentNs => if isTimed mode msg then some { serial, msg, sentNs } else none
    | _ => none

/-- The commands whose answer has reached the probe. -/
def arrivals (notes : List Note) : List ℕ :=
  notes.filterMap fun
    | .arrived serial _ _ => some serial
    | _ => none

/-- The timed commands whose answer has not reached the probe. -/
def outstanding (mode : Mode) (notes : List Note) : List TimedCommand :=
  (timed mode notes).filter fun c => c.serial ∉ arrivals notes

/-- The report accepts the command. -/
def Acks : InMsg → OutMsg → Prop
  | .newOrder order, .orderAck ack => ack.clId = order.clId
  | .cancelOrder cancel, .cancelAck ack => ack.clId = cancel.clId
  | _, _ => False

/-- When the `i`-th timed command is due, if it is sent at `sentNs`: a paced run has a schedule. -/
def Probe.dueNs (p : Probe) (i : ℕ) (sentNs : ℤ) : ℤ :=
  match p.mode, p.periodNs with
  | .paced, some periodNs => p.startNs + i * periodNs
  | _, _ => sentNs

end Harness

end MarketMaker
