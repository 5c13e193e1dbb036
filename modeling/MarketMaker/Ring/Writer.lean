import MarketMaker.Ring.Queue

/-!
# The telemetry writer

`TelemetryWriter`: the thread that drains the telemetry ring in bounded batches, beside the
producer that may push at any instant and the request to stop, one access at a time. The mutex is
held across an access only while the loop looks whether the ring is still busy; reading `stop_`
under it hands the writer everything that the thread that set it had seen.

The stream is its lines and a sticky failure, which may come at any time.
-/

namespace MarketMaker

namespace TelemetryWriter

open MarketMaker.Ring

/-- Where `run()` is. `last` marks the `drain()` that follows the loop. -/
inductive Phase where
  /-- The call of `drain()` is next. -/
  | drain (last : Bool)
  /-- Inside the `pending()` that gives the budget. -/
  | budgeting (last : Bool)
  /-- At the head of the loop of `drain()`. -/
  | draining (last : Bool) (budget : ℕ)
  /-- Inside `try_pop`, for the last but `budget`. -/
  | popping (last : Bool) (budget : ℕ)
  /-- The flush and the look at the stream are next. -/
  | flushing (last : Bool)
  /-- The lock of `mutex_` and the read of `stop_` are next. -/
  | locking
  /-- Inside `pending()`, with `mutex_` held. -/
  | peeking
  /-- Inside `wait_for`, which has released `mutex_`. -/
  | waiting
  /-- The call of `emit_close_line()` is next. -/
  | marking
  /-- Inside its `pending()`. -/
  | closing
  /-- The last flush and the last look at the stream are next. -/
  | ending
  /-- `run()` has returned. -/
  | ended
deriving DecidableEq, Repr

/-- The close marker. -/
structure CloseLine where
  pendingLeft : UInt64
  dropped : ℕ
  streamOk : Bool
deriving DecidableEq, Repr

/-- The ring, the writer and its stream. -/
structure State (cfg : Config) (α : Type*) where
  ring : Ring.State cfg α
  phase : Phase
  stop : Bool
  joined : Bool
  /-- How much of the history of `tail` the thread that set `stop` had seen. -/
  stopSeen : ℕ
  outputFailed : Bool
  /-- `out_.fail()`. -/
  streamFailed : Bool
  /-- The records that `emit_line` was called on. -/
  lines : List α
  lostLines : ℕ
  closeLine : Option CloseLine

variable {cfg : Config} {α : Type*}

/-- A writer that has just been constructed, over a sink that may be dead already. -/
def State.init (cfg : Config) {α : Type*} (slots : Fin cfg.capacity.size.toNat → α)
    (failed : Bool) : State cfg α where
  ring := .init cfg slots
  phase := .drain false
  stop := false
  joined := false
  stopSeen := 0
  outputFailed := failed
  streamFailed := failed
  lines := []
  lostLines := 0
  closeLine := none

/-- What an interleaving is made of. -/
inductive Act (α : Type*) where
  /-- The producer calls `try_push`. -/
  | push (slot : α)
  /-- The producer calls `pending()`. -/
  | producerPending (lag : ℕ)
  /-- The producer's next access. -/
  | producer (lag : ℕ)
  /-- The writer's next access; in `wait_for`, a wake-up that is not the timeout. -/
  | writer (lag : ℕ)
  /-- The poll interval of `wait_for` is over. -/
  | timeout
  /-- `stop_and_join()`, up to its wait for the thread. -/
  | stopAndJoin
  /-- The stream fails. -/
  | streamFails
deriving Repr

/-- The accesses to the ring that a step makes, with what the calls returned. -/
abbrev Log (α : Type*) := List (Ring.Act α × List (Event α))

/-- An access to the ring, and what its thread does with the return. -/
def State.access (s : State cfg α) (act : Ring.Act α)
    (next : State cfg α → List (Event α) → State cfg α) : State cfg α × Log α :=
  let r := Ring.step s.ring act
  (next { s with ring := r.1 } r.2, [(act, r.2)])

/-- A record popped by `drain()`: a line, or a counted loss once the failure has latched. -/
def State.take (s : State cfg α) (slot : α) : State cfg α :=
  if s.outputFailed then { s with lostLines := s.lostLines + 1 }
  else { s with lines := s.lines ++ [slot] }

/-- The sticky state of the stream latches. -/
def State.latch (s : State cfg α) : State cfg α :=
  { s with outputFailed := s.outputFailed || s.streamFailed }

/-- The loop is left: `stop_` was read as set under the mutex, and with it comes what the thread
that set it had seen. -/
def State.leave (s : State cfg α) : State cfg α :=
  { s with
    ring := { s.ring with tailSeen := max s.ring.tailSeen s.stopSeen }
    phase := .drain true }

/-- The writer's next access. -/
def writerStep (s : State cfg α) (lag : ℕ) : State cfg α × Log α :=
  match s.phase with
  | .drain last => s.access .consumerPending fun s _ => { s with phase := .budgeting last }
  | .budgeting last => s.access (.consumer lag) fun s out =>
    match out with
    | [.consumerPending count] => { s with phase := .draining last count.toNat }
    | _ => s
  | .draining last 0 => ({ s with phase := .flushing last }, [])
  | .draining last (budget + 1) =>
    s.access .tryPop fun s _ => { s with phase := .popping last budget }
  | .popping last budget => s.access (.consumer lag) fun s out =>
    match out with
    | [.popped slot] => { s.take slot with phase := .draining last budget }
    | [.empty] => { s with phase := .flushing last }
    | _ => s
  | .flushing last => ({ s.latch with phase := if last then .marking else .locking }, [])
  | .locking =>
    if s.stop then (s.leave, [])
    else s.access .consumerPending fun s _ => { s with phase := .peeking }
  | .peeking => s.access (.consumer lag) fun s out =>
    match out with
    | [.consumerPending count] => { s with phase := if 0 < count then .drain false else .waiting }
    | _ => s
  -- a wake-up without a request is spurious, and the wait goes on
  | .waiting => if s.stop then (s.leave, []) else (s, [])
  | .marking => s.access .consumerPending fun s _ => { s with phase := .closing }
  | .closing => s.access (.consumer lag) fun s out =>
    match out with
    | [.consumerPending count] =>
      { s with
        closeLine := some
          { pendingLeft := count, dropped := s.ring.dropped, streamOk := !s.outputFailed }
        phase := .ending }
    | _ => s
  | .ending => ({ s.latch with phase := .ended }, [])
  | .ended => (s, [])

/-- `stop_and_join()`, which waits for the mutex and does nothing when called again. -/
def stopAndJoin (s : State cfg α) : State cfg α :=
  if s.phase = .peeking ∨ s.joined then s
  else { s with joined := true, stop := true, stopSeen := s.ring.tail.past.length }

/-- One action. -/
def step (s : State cfg α) : Act α → State cfg α × Log α
  | .push slot => s.access (.push (.tryPush true) slot) fun s _ => s
  | .producerPending lag => s.access (.producerPending lag) fun s _ => s
  | .producer lag => s.access (.producer lag) fun s _ => s
  | .writer lag => writerStep s lag
  | .timeout =>
    match s.phase with
    | .waiting => if s.stop then (s.leave, []) else ({ s with phase := .drain false }, [])
    | _ => (s, [])
  | .stopAndJoin => (stopAndJoin s, [])
  | .streamFails => ({ s with streamFailed := true }, [])

/-! ## The account of a run -/

/-- The writer beside an observer that keeps the accesses to the ring and notes how far the pushes
and pops had come at the request to stop and at the start of the latest batch. -/
structure Account (cfg : Config) (α : Type*) where
  state : State cfg α
  log : Log α
  /-- The pushes accepted when the writer was told to stop. -/
  requested : ℕ
  /-- The drains begun since. -/
  begun : ℕ
  /-- The records popped when the latest `drain()` read its budget. -/
  entered : ℕ
  /-- That budget. -/
  pending : ℕ

/-- The step calls `drain()`. -/
def begins (s : State cfg α) : Act α → Bool
  | .writer _ => match s.phase with
    | .drain _ => true
    | _ => false
  | _ => false

/-- The budget that the step reads. -/
def budgetRead (s : State cfg α) (act : Act α) : Option ℕ :=
  match s.phase, (step s act).1.phase with
  | .budgeting _, .draining _ budget => some budget
  | _, _ => none

/-- The number of records that the ring holds. -/
def Account.left (t : Account cfg α) : ℕ := (accepted t.log).length - (poppedIn t.log).length

/-- One action, with what the observer notes of it. -/
def Account.step (t : Account cfg α) (act : Act α) : Account cfg α × Log α :=
  let r := TelemetryWriter.step t.state act
  ({  state := r.1
      log := t.log ++ r.2
      requested := if !t.state.stop && r.1.stop then (accepted t.log).length else t.requested
      begun := if t.state.stop && begins t.state act then t.begun + 1 else t.begun
      entered := if (budgetRead t.state act).isSome then (poppedIn t.log).length else t.entered
      pending := (budgetRead t.state act).getD t.pending }, r.2)

/-- An interleaving on a new ring with a new writer. -/
abbrev run (cfg : Config) {α : Type*} (slots : Fin cfg.capacity.size.toNat → α) (failed : Bool)
    (acts : List (Act α)) : Account cfg α :=
  (Mealy.run Account.step
    { state := .init cfg slots failed, log := [], requested := 0, begun := 0, entered := 0,
      pending := 0 } acts).1

/-- The drain that follows the loop is over. -/
def Phase.IsDrained : Phase → Prop
  | .marking | .closing | .ending | .ended => True
  | _ => False

/-- What holds after any run. The cutoff of the latest batch is `entered + pending`. -/
structure Conserves (t : Account cfg α) : Prop where
  /-- No record is popped twice, skipped or popped before an older one. -/
  fifo : poppedIn t.log <+: accepted t.log
  /-- Every record popped is a line or a counted loss. -/
  taken : t.state.lines.length + t.state.lostLines = (poppedIn t.log).length
  order : t.state.lines.Sublist (poppedIn t.log)
  /-- The latest batch has popped no more than its budget. -/
  bounded : (poppedIn t.log).length ≤ t.entered + t.pending
  begun : t.begun ≤ 2
  /-- The final drain popped everything before its cutoff, with it all that was accepted before
  the request. -/
  drained : t.state.phase.IsDrained →
    poppedIn t.log = (accepted t.log).take (t.entered + t.pending) ∧
      t.requested ≤ t.entered + t.pending
  /-- The marker accounts for the pushes that its reading saw. If none was accepted after the
  request, then these are all of them and nothing is left. -/
  closed : ∀ m, t.state.closeLine = some m →
    t.state.lines.length + t.state.lostLines + m.pendingLeft.toNat ≤ (accepted t.log).length ∧
      ((accepted t.log).length = t.requested →
        m.pendingLeft = 0 ∧ poppedIn t.log = accepted t.log)

/-- What the two readings of `pending()` say when they are made: nothing that is not in the ring,
and all that is in it if the load is not stale. -/
structure ReadsLeft (t : Account cfg α) (lag : ℕ) : Prop where
  budget : ∀ budget, budgetRead t.state (.writer lag) = some budget →
    budget ≤ t.left ∧ (lag = 0 → budget = t.left)
  closeLine : ∀ m, t.state.closeLine = none →
    (step t.state (.writer lag)).1.closeLine = some m →
      m.pendingLeft.toNat ≤ t.left ∧
        (lag = 0 → t.state.lines.length + t.state.lostLines + m.pendingLeft.toNat =
          (accepted t.log).length)

end TelemetryWriter

end MarketMaker
