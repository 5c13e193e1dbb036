import MarketMaker.Engine.OrderStep
import MarketMaker.Strategy.Side

/-!
# The strategy and the engine, composed

One strategy, connected as session `s`, and the engine, with a FIFO channel each way. Commands
reach the engine in the order the strategy sent them and reports reach the strategy in the order
the engine produced them. Books reach the engine in increasing `md_seq`; the strategy sees some of
them, in order, at any later time: a tick may be conflated away, and it may overtake reports or be
overtaken by them. Whatever is delivered to the strategy carries the next envelope `seq`. Timers
fire at any time, and other sessions use the same engine at will.
-/

namespace MarketMaker

open OrderEngine

/-- The two parties and what is in flight between them. -/
structure Duplex where
  strategy : Strategy
  engine : OrderEngine := {}
  /-- Commands on their way to the engine. -/
  commands : List InMsg := []
  /-- Reports on their way to the strategy. -/
  reports : List OutMsg := []
  /-- Books published and neither delivered to the strategy nor conflated away. -/
  books : List Book := []
  /-- The number of messages delivered to the strategy. -/
  inbound : ℕ := 0

namespace Duplex

/-- What can happen next. -/
inductive Event
  /-- A book reaches the engine and is published. -/
  | book (book : Book)
  /-- Another session calls the engine. -/
  | other (call : Call)
  /-- The oldest command in flight reaches the engine. -/
  | command
  /-- The oldest report in flight reaches the strategy. -/
  | report (nowNs : ℤ)
  /-- A tick reaches the strategy; the `conflated` older ones never will. -/
  | tob (conflated : ℕ) (nowNs : ℤ)
  | timer (nowNs : ℤ)

variable (cfg : EngineConfig) (scfg : StrategyConfig) (s : ℕ)

/-- The strategy right after `on_connect`, on a fresh engine. -/
def init (st : Strategy) : Duplex := { strategy := (st.onConnect s).1 }

/-- The engine call of a command. -/
def callOf : InMsg → Call
  | .newOrder m => .onNew s m
  | .cancelOrder m => .onCancel s m

/-- The call is a command or the end of another session. -/
def isOther : Call → Bool
  | .onNew session _ => session ≠ s
  | .onCancel session _ => session ≠ s
  | .endSession session => session ≠ s
  | .onBook _ => false

/-- The tick of a book. -/
def tobOf (book : Book) : OutMsg :=
  .tob { mdSeq := book.mdSeq, symbol := cfg.inst.symbol, bidPx := book.bidPx, bidQty := book.bidQty
         askPx := book.askPx, askQty := book.askQty }

/-- A call of the engine: its reports for the session are on their way. -/
def call (x : Duplex) (c : Call) : Duplex :=
  { x with
    engine := (OrderEngine.step cfg x.engine c).1
    reports := x.reports ++ reportsTo s (OrderEngine.step cfg x.engine c).2 }

/-- The strategy has acted: its commands are on their way. -/
def act (x : Duplex) (r : Strategy × List Cmd) : Duplex :=
  { x with strategy := r.1, commands := x.commands ++ sends r.2 }

/-- Hand a message to the strategy, with the next envelope `seq`. -/
def deliver (x : Duplex) (msg : OutMsg) (nowNs : ℤ) : Duplex :=
  ({ x with inbound := x.inbound + 1 } : Duplex).act
    (x.strategy.onReport scfg (msg.stamp (x.inbound + 1) s) nowNs)

/-- One event, and the answers of the engine to a command of the strategy. An event that is not
enabled changes nothing. -/
def step (x : Duplex) : Event → Duplex × List OutMsg
  | .book book =>
    if x.engine.isFresh book then
      ({ x.call cfg s (.onBook book) with books := x.books ++ [book] }, [])
    else (x, [])
  | .other c => if isOther s c then (x.call cfg s c, []) else (x, [])
  | .command =>
    match x.commands with
    | [] => (x, [])
    | m :: rest =>
      (({ x with commands := rest } : Duplex).call cfg s (callOf s m),
        reportsTo s (OrderEngine.step cfg x.engine (callOf s m)).2)
  | .report nowNs =>
    match x.reports with
    | [] => (x, [])
    | m :: rest => (({ x with reports := rest } : Duplex).deliver scfg s m nowNs, [])
  | .tob conflated nowNs =>
    match x.books.drop conflated with
    | [] => (x, [])
    | book :: rest => (({ x with books := rest } : Duplex).deliver scfg s (tobOf cfg book) nowNs,
        [])
  | .timer nowNs => (x.act (x.strategy.onTimer scfg nowNs), [])

/-- A run of events after `on_connect`. -/
abbrev run (st : Strategy) (events : List Event) : Duplex × List (Event × List OutMsg) :=
  Mealy.run (step cfg scfg s) (init s st) events

end Duplex

end MarketMaker
