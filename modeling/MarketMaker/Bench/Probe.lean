import MarketMaker.Strategy.Basic

/-!
# The benchmark probe

`_Probe` of the harness (`run_bench.py`): it stands where the strategy stands, and records three
clock readings for each command that it times. A method takes as arguments the readings that the
source takes inside it. Every command is a `SendCmd`, so a method returns the messages; `none` is an
exception that leaves the method.

Readings are `int64` nanoseconds, and so is a slot of the schedule that is due.
-/

namespace MarketMaker

namespace Harness

/-- `_BID_PX`. -/
def BID_PX : ℤ := 1000

/-- `_QTY`. -/
def QTY : ℤ := 10

/-- `_SYMBOL`. -/
def SYMBOL : Bytes := ascii "MOCKUSDT"

/-- The modes of a run. -/
inductive Mode
  | idle
  | paced
  | react
  deriving DecidableEq, Repr

/-- `_Probe`. -/
structure Probe where
  mode : Mode
  total : ℕ
  /-- `int(1_000_000_000 / self.rate_hz)`; `none` when it raises. -/
  periodNs : Option ℕ
  intendedNs : List ℤ
  sentNs : List ℤ
  doneNs : List ℤ
  count : ℕ := 0
  rejects : ℕ := 0
  rejectReason : Bytes := []
  epoch : ℕ := 0
  nextId : ℕ := 0
  pendingId : Option Bytes := none
  pendingIntendedNs : ℤ := 0
  pendingSentNs : ℤ := 0
  cancelPhase : Bool := false
  liveId : Option Bytes := none
  startNs : ℤ := 0
  issued : ℕ := 0
  mdSeq : ℕ := 0
  /-- The event is set. -/
  done : Bool := false
  deriving DecidableEq

/-- The client order id of the `n`-th order of a probe, `"P-3"`. -/
def orderId (n : ℕ) : Bytes := ascii "P-" ++ decimal n

theorem orderId_injective : Function.Injective orderId := fun _ _ h =>
  decimal_natCast_injective (List.append_cancel_left h)

@[simp]
theorem orderId_inj {m n : ℕ} : orderId m = orderId n ↔ m = n := orderId_injective.eq_iff

/-- `samples[i] = value`; `none` is an `IndexError`. -/
def setItem (samples : List ℤ) (i : ℕ) (value : ℤ) : Option (List ℤ) :=
  if i < samples.length then some (samples.set i value) else none

namespace Probe

/-- The constructor with `__post_init__`; `none` is its `ValueError`. -/
def new (mode : Mode) (total : ℤ) (periodNs : Option ℕ) : Option Probe :=
  if total ≤ 0 then none
  else
    let zeros := List.replicate total.toNat 0
    some { mode, total := total.toNat, periodNs, intendedNs := zeros, sentNs := zeros,
           doneNs := zeros }

/-- `finished`. -/
def finished (p : Probe) : Bool := p.total ≤ p.count

/-! ## Helpers -/

/-- `_issue`. -/
def issue (p : Probe) (sentNs intendedNs : ℤ) : Probe × List InMsg :=
  let p :=
    { p with pendingIntendedNs := intendedNs, pendingSentNs := sentNs, issued := p.issued + 1 }
  if p.cancelPhase ∧ p.nextId ≠ 0 then
    let clId := orderId p.nextId
    ({ p with pendingId := some clId }, [.cancelOrder { epoch := p.epoch, clId }])
  else
    let nextId := p.nextId + 1
    let clId := orderId nextId
    ({ p with nextId, pendingId := some clId },
      [.newOrder { epoch := p.epoch, mdSeq := p.mdSeq, clId, symbol := SYMBOL, side := ascii "B"
                   px := BID_PX, qty := QTY, postOnly := true }])

/-- `_paced`. -/
def paced (p : Probe) (nowNs : ℤ) : Probe × Option (List InMsg) :=
  if p.pendingId.isSome then (p, some [])
  else
    match p.periodNs with
    | none => (p, none)
    | some periodNs =>
      let intended := p.startNs + p.issued * periodNs
      if nowNs < intended then (p, some [])
      else
        let r := p.issue nowNs intended
        (r.1, some r.2)

/-- `_react`. -/
def react (p : Probe) (nowNs : ℤ) : Probe × List InMsg :=
  if p.pendingId.isSome ∨ p.finished ∨ p.epoch = 0 then (p, [])
  else
    match p.liveId with
    | some clId =>
      let r := ({ p with liveId := none } : Probe).issue nowNs nowNs
      (r.1, .cancelOrder { epoch := p.epoch, clId } :: r.2)
    | none => p.issue nowNs nowNs

/-! ## The surface of a strategy -/

/-- `on_connect`; it issues nothing. -/
def onConnect (p : Probe) (epoch : ℕ) (startNs : ℤ) : Probe :=
  { p with epoch, pendingId := none, cancelPhase := false, startNs }

/-- `on_timer`. -/
def onTimer (p : Probe) (nowNs : ℤ) : Probe × Option (List InMsg) :=
  if p.epoch = 0 ∨ p.finished ∨ p.mode = .react then (p, some [])
  else if p.mode = .paced then p.paced nowNs
  else if p.pendingId.isSome then (p, some [])
  else
    let r := p.issue nowNs nowNs
    (r.1, some r.2)

/-- `_on_reject`. -/
def onReject (p : Probe) (msg : Reject) : Probe :=
  { p with
    rejects := p.rejects + 1
    rejectReason := msg.code ++ ascii ": " ++ msg.reason
    pendingId := none
    done := true }

/-- `_on_book`. -/
def onBook (p : Probe) (tob : Tob) (nowNs : ℤ) : Probe × List InMsg :=
  let p := { p with mdSeq := tob.mdSeq }
  if p.mode = .react then p.react nowNs else (p, [])

/-- The stores of `_on_ack`, and its cycle is counted. -/
def record (p : Probe) (doneNs : ℤ) : Option Probe := do
  let i := p.count
  let intended ← setItem p.intendedNs i p.pendingIntendedNs
  let sent ← setItem p.sentNs i p.pendingSentNs
  let done ← setItem p.doneNs i doneNs
  return { p with intendedNs := intended, sentNs := sent, doneNs := done, count := i + 1 }

/-- `_on_ack` up to the test whether the run is over. -/
def settle (p : Probe) (msg : OutMsg) : Probe :=
  let liveId :=
    match msg with
    | .orderAck ack => some ack.clId
    | _ => p.liveId
  { p with liveId, pendingId := none }

/-- `_on_ack`. -/
def onAck (p : Probe) (msg : OutMsg) (doneNs : ℤ) : Probe × Option (List InMsg) :=
  if msg.clId.isNone ∨ msg.clId ≠ p.pendingId then (p, some [])
  else
    match p.record doneNs with
    | none => (p, none)
    | some p =>
      let p := p.settle msg
      if p.finished then ({ p with done := true }, some [])
      else
        match p.mode with
        | .idle =>
          let r := ({ p with cancelPhase := !p.cancelPhase } : Probe).issue doneNs doneNs
          (r.1, some r.2)
        | .paced => ({ p with cancelPhase := !p.cancelPhase } : Probe).paced doneNs
        | .react => (p, some [])

/-- `on_report`. -/
def onReport (p : Probe) (msg : OutMsg) (nowNs : ℤ) : Probe × Option (List InMsg) :=
  match msg with
  | .reject msg => (p.onReject msg, some [])
  | .tob tob =>
    let r := p.onBook tob nowNs
    (r.1, some r.2)
  | msg => p.onAck msg nowNs

end Probe

end Harness

end MarketMaker
