import MarketMaker.Ring.Wire
import Mathlib.Logic.Function.Basic

/-!
# The native market maker

`mm::NativeMarketMaker` of `mm/strategy_native.hpp`. Its signed arithmetic is over the integers with
every result checked to be an `int64`: a result that is not one is undefined behaviour, and the call
has no outcome (`none`). Unsigned counters wrap.

The two slots for the active orders are one function of the side, since the code treats the sides
alike: `pull` is each block that emits a `CancelOrder`, and `manage` each of the two sections of
`on_tob`.
-/

namespace MarketMaker

instance (z : ℤ) : Decidable (InInt64 z) := inferInstanceAs (Decidable (_ ∧ _))

namespace Native

/-- A result of signed arithmetic. -/
def checked (z : ℤ) : Option ℤ := if InInt64 z then some z else none

/-- `mm::StrategyConfig`. -/
structure StrategyConfig where
  orderSize : Int64 := 10
  maxPosition : Int64 := 100
  /-- In ticks. -/
  halfSpread : Int64 := 10
deriving DecidableEq

/-- The active order of a side; the id is 0 when there is none. -/
structure ActiveOrder where
  clId : UInt64 := 0
  px : ℤ := 0
deriving DecidableEq

/-- What is decided for a side. A flag of the source that is off is `none` here. -/
structure SideDecision where
  cancel : Option ShmCancelOrder := none
  order : Option ShmNewOrder := none
deriving DecidableEq

/-- `mm::StrategyDecision`. -/
structure StrategyDecision where
  bid : SideDecision := {}
  ask : SideDecision := {}
deriving DecidableEq

/-- `mm::NativeMarketMaker`. -/
structure NativeMarketMaker where
  nextClId : UInt64 := 1
  seq : UInt32 := 1
  position : ℤ := 0
  realizedPnl : ℤ := 0
  active : Side → ActiveOrder := fun _ => {}
  lastMdSeq : UInt64 := 0
  lastTobNs : Int64 := 0
  fillCount : UInt64 := 0
  ackCount : UInt64 := 0
  rejectCount : UInt64 := 0

namespace NativeMarketMaker

/-- Empty the slot of a side; its price stays. -/
def clear (s : NativeMarketMaker) (side : Side) : NativeMarketMaker :=
  { s with active := Function.update s.active side { s.active side with clId := 0 } }

/-- Cancel the active order of a side, if there is one. -/
def pull (s : NativeMarketMaker) (side : Side) : NativeMarketMaker × Option ShmCancelOrder :=
  if (s.active side).clId ≠ 0 then
    ({ s.clear side with seq := s.seq + 1 },
      some { seq := s.seq, clId := (s.active side).clId, sendTsNs := s.lastTobNs })
  else (s, none)

/-- `cancel_all`. -/
def cancelAll (s : NativeMarketMaker) : NativeMarketMaker × StrategyDecision :=
  let bid := s.pull .bid
  let ask := bid.1.pull .ask
  (ask.1, { bid := { cancel := bid.2 }, ask := { cancel := ask.2 } })

/-- The `side` byte of an order. -/
def sideByte : Side → UInt8
  | .bid => 1
  | .ask => 2

section Config

variable (cfg : StrategyConfig)

/-- Post an order. -/
def post (s : NativeMarketMaker) (side : Side) (target : ℤ) (mdSeq : UInt64) :
    NativeMarketMaker × ShmNewOrder :=
  ({ s with
      nextClId := s.nextClId + 1, seq := s.seq + 1
      active := Function.update s.active side { clId := s.nextClId, px := target } },
    { side := sideByte side, postOnly := 1, seq := s.seq, mdSeq, clId := s.nextClId
      px := Int64.ofInt target, qty := cfg.orderSize, sendTsNs := s.lastTobNs })

/-- The section of `on_tob` for one side: requote it, or pull it if it must not quote. -/
def manage (s : NativeMarketMaker) (side : Side) (allowed : Bool) (target : ℤ) (mdSeq : UInt64) :
    NativeMarketMaker × SideDecision :=
  if allowed then
    let pulled := if (s.active side).px ≠ target then s.pull side else (s, none)
    if (pulled.1.active side).clId = 0 then
      let posted := pulled.1.post cfg side target mdSeq
      (posted.1, { cancel := pulled.2, order := some posted.2 })
    else (pulled.1, { cancel := pulled.2 })
  else
    let pulled := s.pull side
    (pulled.1, { cancel := pulled.2 })

/-- The book is one that the strategy quotes on. -/
def validBook (tob : ShmTopOfBook) : Bool :=
  !(tob.bidPx.toInt ≤ 0 || tob.askPx.toInt ≤ 0 || tob.bidPx.toInt ≥ tob.askPx.toInt)

/-- What `on_tob` notes of every book. -/
def noted (s : NativeMarketMaker) (tob : ShmTopOfBook) (nowNs : Int64) : NativeMarketMaker :=
  { s with
    lastTobNs := if nowNs.toInt > 0 then nowNs else tob.venueNs
    lastMdSeq := tob.mdSeq }

/-- The target prices of `on_tob`, for the bid and the ask. -/
def targets (position : ℤ) (tob : ShmTopOfBook) : Option (ℤ × ℤ) := do
  let sum ← checked (tob.bidPx.toInt + tob.askPx.toInt)
  let mid := sum.tdiv 2
  let doubled ← checked (position * 2)
  let skew := doubled.tdiv 10
  let bidBase ← checked (mid - cfg.halfSpread.toInt)
  let bid ← checked (bidBase - skew)
  let askBase ← checked (mid + cfg.halfSpread.toInt)
  let ask ← checked (askBase - skew)
  return (bid, ask)

/-- `on_tob`. -/
def onTob (s : NativeMarketMaker) (tob : ShmTopOfBook) (nowNs : Int64) :
    Option (NativeMarketMaker × StrategyDecision) :=
  let s := s.noted tob nowNs
  if !validBook tob then some s.cancelAll
  else do
    let (targetBid, targetAsk) ← targets cfg s.position tob
    let bid := s.manage cfg .bid
      (s.position < cfg.maxPosition.toInt && targetBid < tob.askPx.toInt) targetBid tob.mdSeq
    let low ← checked (-cfg.maxPosition.toInt)
    let ask := bid.1.manage cfg .ask
      (low < bid.1.position && tob.bidPx.toInt < targetAsk) targetAsk tob.mdSeq
    return (ask.1, { bid := bid.2, ask := ask.2 })

end Config

/-- `on_ack`. -/
def onAck (s : NativeMarketMaker) (_ack : ShmOrderAck) : NativeMarketMaker :=
  { s with ackCount := s.ackCount + 1 }

/-- `on_fill`. -/
def onFill (s : NativeMarketMaker) (fill : ShmOrderFill) : Option NativeMarketMaker :=
  let s := { s with fillCount := s.fillCount + 1 }
  if fill.clId = (s.active .bid).clId then do
    let position ← checked (s.position + fill.fillQty.toInt)
    let notional ← checked (fill.fillPx.toInt * fill.fillQty.toInt)
    let realizedPnl ← checked (s.realizedPnl - notional)
    return { s.clear .bid with position, realizedPnl }
  else if fill.clId = (s.active .ask).clId then do
    let position ← checked (s.position - fill.fillQty.toInt)
    let notional ← checked (fill.fillPx.toInt * fill.fillQty.toInt)
    let realizedPnl ← checked (s.realizedPnl + notional)
    return { s.clear .ask with position, realizedPnl }
  else some s

/-- `on_reject`. -/
def onReject (s : NativeMarketMaker) (reject : ShmOrderReject) : NativeMarketMaker :=
  let s := { s with rejectCount := s.rejectCount + 1 }
  if reject.clId = (s.active .bid).clId then s.clear .bid
  else if reject.clId = (s.active .ask).clId then s.clear .ask
  else s

end NativeMarketMaker

/-! ## Calls -/

/-- A call of the strategy. -/
inductive Call
  | tob (tob : ShmTopOfBook) (nowNs : Int64)
  | ack (ack : ShmOrderAck)
  | fill (fill : ShmOrderFill)
  | reject (reject : ShmOrderReject)
  | cancelAll

/-- A call, with what it decides; `none` if its arithmetic overflows. -/
def step (cfg : StrategyConfig) (s : NativeMarketMaker) :
    Call → Option (NativeMarketMaker × StrategyDecision)
  | .tob tob nowNs => s.onTob cfg tob nowNs
  | .ack ack => some (s.onAck ack, {})
  | .fill fill => (s.onFill fill).map fun s => (s, {})
  | .reject reject => some (s.onReject reject, {})
  | .cancelAll => some s.cancelAll

end Native

end MarketMaker
