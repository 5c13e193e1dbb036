import MarketMaker.Lib.Mealy
import MarketMaker.Lib.OrderedMap
import MarketMaker.Protocol
import Mathlib.Data.Prod.Lex

/-!
# The order engine

`mm::OrderEngine` (`mm/engine.hpp`, `engine.cpp`): the session-scoped order state machine and its
deterministic fill rule, on runs in which no allocation fails. `Engine.Alloc` models the same
entry points with every allocation as a step that may fail.

The four containers of the source stay four containers. `orders_` is an `OrderedMap` keyed by
`(session, cl_id)`; a live index is the ordered set of the keys its `orders_` iterators point at;
`entries_by_session_` is an `OrderedMap` of counters. Nothing here says that the indexes agree
with `orders_`: that is `Engine.Invariant`.

Counters (`next_eng_id_`, `next_exec_id_`, `stale_books_ignored_`) are naturals; a `uint64` one
would wrap only after `2 ^ 64` accepts, fills or stale books.
-/

namespace MarketMaker

/-! ## State -/

/-- The key of `orders_`, ordered by session and then by client order id (`KeyLess`). -/
structure OrderKey where
  session : ℕ
  clId : Bytes
  deriving DecidableEq, Repr

namespace OrderKey

/-- The pair a key is compared by. -/
def toPair (k : OrderKey) : ℕ ×ₗ Bytes := toLex (k.session, k.clId)

theorem toPair_injective : Function.Injective toPair := by
  rintro ⟨s, c⟩ ⟨s', c'⟩ h
  simpa [toPair] using h

instance : LinearOrder OrderKey := LinearOrder.lift' toPair toPair_injective

theorem lt_iff (a b : OrderKey) :
    a < b ↔ a.session < b.session ∨ a.session = b.session ∧ a.clId < b.clId :=
  Prod.Lex.toLex_lt_toLex

theorem le_iff (a b : OrderKey) :
    a ≤ b ↔ a.session < b.session ∨ a.session = b.session ∧ a.clId ≤ b.clId :=
  Prod.Lex.toLex_le_toLex

end OrderKey

/-- `mm::OrdState`. -/
inductive OrdState
  | live
  | filled
  | cancelled
  | rejected
  deriving DecidableEq, Repr

/-- `mm::Order`, with the member defaults of the source. -/
structure Order where
  engId : ℕ := 0
  side : Side := .bid
  px : Ticks := ⟨0⟩
  /-- Remaining size in raw quantity units. -/
  leaves : ℤ := 0
  st : OrdState := .live
  deriving DecidableEq, Repr

/-- `mm::Book`. -/
structure Book where
  bidPx : ℤ := 0
  bidQty : ℤ := 0
  askPx : ℤ := 0
  askQty : ℤ := 0
  mdSeq : ℕ := 0
  deriving DecidableEq, Repr

/-- `mm::Routed`: a report and the session it belongs to. -/
structure Routed where
  session : ℕ
  msg : OutMsg
  deriving DecidableEq, Repr

/-- What the `OrderEngine` constructor accepts: it throws unless all six conditions hold. -/
structure EngineConfig where
  inst : Instrument
  maxSessionEntries : ℕ
  tickSize_pos : 0 < inst.tickSize
  lotSize_pos : 0 < inst.lotSize
  maxLiveOrders_nonneg : 0 ≤ inst.maxLiveOrders
  maxOrderQty_pos : 0 < inst.maxOrderQty
  minPrice_le_maxPrice : inst.minPrice ≤ inst.maxPrice
  maxSessionEntries_pos : 0 < maxSessionEntries

/-- The `OrderEngine` constructor; `none` is its `std::invalid_argument`. -/
def EngineConfig.construct (inst : Instrument) (maxSessionEntries : ℕ) : Option EngineConfig :=
  if h : 0 < inst.tickSize ∧ 0 < inst.lotSize ∧ 0 ≤ inst.maxLiveOrders ∧ 0 < inst.maxOrderQty ∧
      inst.minPrice ≤ inst.maxPrice ∧ 0 < maxSessionEntries then
    some ⟨inst, maxSessionEntries, h.1, h.2.1, h.2.2.1, h.2.2.2.1, h.2.2.2.2.1, h.2.2.2.2.2⟩
  else none

/-- `kDefaultMaxSessionEntries`. -/
def defaultMaxSessionEntries : ℕ := 1 <<< 20

/-- The engine of the source's tests: the default instrument and the default cap. -/
def specConfig : EngineConfig where
  inst := { symbol := ascii "MOCKUSDT" }
  maxSessionEntries := defaultMaxSessionEntries
  tickSize_pos := by decide
  lotSize_pos := by decide
  maxLiveOrders_nonneg := by decide
  maxOrderQty_pos := by decide
  minPrice_le_maxPrice := by decide
  maxSessionEntries_pos := by decide

/-- The mutable state of `mm::OrderEngine`. -/
structure OrderEngine where
  book : Book := {}
  /-- Tells "no book yet" from a first book with `md_seq` 0. -/
  bookSeen : Bool := false
  nextEngId : ℕ := 1
  nextExecId : ℕ := 1
  staleBooksIgnored : ℕ := 0
  orders : OrderedMap OrderKey Order := .empty
  liveBids : OrderedSet OrderKey := .empty
  liveAsks : OrderedSet OrderKey := .empty
  entriesBySession : OrderedMap ℕ ℕ := .empty
  deriving DecidableEq

namespace OrderEngine

variable (cfg : EngineConfig)

/-- `live_index(side)`. -/
def liveIndex (e : OrderEngine) : Side → OrderedSet OrderKey
  | .bid => e.liveBids
  | .ask => e.liveAsks

/-- Replace the live index of a side. -/
def setLiveIndex (e : OrderEngine) (side : Side) (live : OrderedSet OrderKey) : OrderEngine :=
  match side with
  | .bid => { e with liveBids := live }
  | .ask => { e with liveAsks := live }

/-- `session_floor`: the first possible key of a session. -/
def sessionFloor (session : ℕ) : OrderKey := ⟨session, []⟩

/-- `session_range`: a session's entries in any container ordered by `(session, cl_id)`, by a
lower bound and a forward walk. -/
def sessionRange {V : Type} (c : OrderedMap OrderKey V) (session : ℕ) : List (OrderKey × V) :=
  c.range (sessionFloor session) fun k => k.session = session

/-- Erase the range that `sessionRange` walks. -/
def eraseSession {V : Type} (c : OrderedMap OrderKey V) (session : ℕ) : OrderedMap OrderKey V :=
  c.eraseRange (sessionFloor session) fun k => k.session = session

/-- `live_count`. -/
def liveCount (e : OrderEngine) (session : ℕ) : ℕ :=
  (sessionRange (e.liveIndex .bid) session).length +
    (sessionRange (e.liveIndex .ask) session).length

/-- `entry_count`. -/
def entryCount (e : OrderEngine) (session : ℕ) : ℕ :=
  (e.entriesBySession.find? session).getD 0

/-- `entry_cap_breached`. -/
def entryCapBreached (e : OrderEngine) (session : ℕ) : Bool :=
  cfg.maxSessionEntries ≤ e.entryCount session

/-! ## Conversions and reports -/

/-- `side_from_wire`. -/
def sideFromWire (side : Bytes) : Option Side :=
  if side = ascii "B" then some .bid
  else if side = ascii "S" then some .ask
  else none

/-- `to_ticks`: the `int64` division truncates. -/
def toTicks (inst : Instrument) (rawPx : ℤ) : Ticks := ⟨rawPx.tdiv inst.tickSize⟩

/-- `to_raw_px`. -/
def toRawPx (inst : Instrument) (px : Ticks) : ℤ := px.v * inst.tickSize

/-- `make_reject`. -/
def makeReject (clId : Bytes) (code : RejectCode) (reason : Bytes) : Reject :=
  { clId, code := code.toString, reason }

/-- `validation_reason`: the text of a `validate_order` code, and the wire spelling of any
other. -/
def validationReason (code : RejectCode) (order : NewOrder) : Bytes :=
  match code with
  | .unknownSymbol => ascii "unknown symbol"
  | .badSide => ascii "side must be \"B\" or \"S\""
  | .tickSize => ascii "px is not a multiple of tick_size"
  | .lotSize => ascii "qty is not a multiple of lot_size"
  | .qtyLimit =>
    if order.qty ≤ 0 then ascii "qty must be positive" else ascii "qty exceeds max_order_qty"
  | .priceRange => ascii "px outside [min_price, max_price]"
  | code => code.toString

/-! ## `on_new` -/

/-- The probe of `on_new`: the lower bound of the key is an entry at the key. -/
def isDuplicate (e : OrderEngine) (session : ℕ) (clId : Bytes) : Bool :=
  match e.orders.lowerBound ⟨session, clId⟩ with
  | some (k, _) => k.session = session && k.clId = clId
  | none => false

/-- The `try_emplace` of a session's counter node together with the increment that commits it. -/
def countEntry (entries : OrderedMap ℕ ℕ) (session : ℕ) : OrderedMap ℕ ℕ :=
  entries.insert session ((entries.find? session).getD 0 + 1)

/-- The `reject` lambda of `on_new`: answer, and store a `Rejected` tombstone. -/
def recordReject (e : OrderEngine) (session : ℕ) (order : NewOrder) (code : RejectCode)
    (reason : Bytes) : OrderEngine × List OutMsg :=
  ({ e with
      orders := e.orders.insert ⟨session, order.clId⟩ { st := .rejected }
      entriesBySession := countEntry e.entriesBySession session },
    [.reject (makeReject order.clId code reason)])

/-- The price of the side of `book` that an order on `side` trades against. -/
def oppPx (book : Book) : Side → ℤ
  | .bid => book.askPx
  | .ask => book.bidPx

/-- The quantity of the side of `book` that an order on `side` trades against. -/
def oppQty (book : Book) : Side → ℤ
  | .bid => book.askQty
  | .ask => book.bidQty

/-- A limit at `px` on `side` is crossed by an opposite price. -/
def crossed (side : Side) (opp px : ℤ) : Bool :=
  match side with
  | .bid => opp ≤ px
  | .ask => opp ≥ px

/-- The entry check: the opposite side of the book is present and crosses `px`. -/
def crosses (book : Book) (side : Side) (px : ℤ) : Bool :=
  oppQty book side > 0 && oppPx book side > 0 && crossed side (oppPx book side) px

/-- The commit of an accepted order: its `orders_` node, its live-index node, the session's
counter and the burnt `eng_id`. -/
def recordAccept (e : OrderEngine) (session : ℕ) (order : NewOrder) (side : Side) :
    OrderEngine × List OutMsg :=
  let key : OrderKey := ⟨session, order.clId⟩
  let ord : Order :=
    { engId := e.nextEngId, side, px := toTicks cfg.inst order.px, leaves := order.qty,
      st := .live }
  let indexed := e.setLiveIndex side ((e.liveIndex side).insert key ())
  ({ indexed with
      orders := e.orders.insert key ord
      entriesBySession := countEntry e.entriesBySession session
      nextEngId := e.nextEngId + 1 },
    [.orderAck { clId := order.clId, engId := ord.engId, status := ascii "live" }])

/-- `on_new`. The checks run in the order duplicate, `validate_order`, live cap, post-only. -/
def onNew (e : OrderEngine) (session : ℕ) (order : NewOrder) : OrderEngine × List OutMsg :=
  if e.isDuplicate session order.clId then
    (e, [.reject (makeReject order.clId .dupClOrdId (ascii "cl_id already used on this session"))])
  else
    match validateOrder cfg.inst order.symbol order.side order.px order.qty with
    | some code => recordReject e session order code (validationReason code order)
    | none =>
      if cfg.inst.maxLiveOrders.toNat ≤ e.liveCount session then
        recordReject e session order .maxLiveOrders
          (ascii "session already holds max_live_orders live orders")
      else
        match sideFromWire order.side with
        | some side =>
          if order.postOnly && crosses e.book side order.px then
            recordReject e session order .postOnlyCross
              (ascii "post-only order would cross the book")
          else recordAccept cfg e session order side
        -- the assertion of the source: `validateOrder` has rejected every other spelling
        | none => (e, [])

/-! ## `on_cancel` -/

/-- The commit of a cancel: the order is terminal and leaves its live index. -/
def recordCancel (e : OrderEngine) (session : ℕ) (clId : Bytes) (ord : Order) :
    OrderEngine × List OutMsg :=
  let key : OrderKey := ⟨session, clId⟩
  let indexed := e.setLiveIndex ord.side ((e.liveIndex ord.side).erase key)
  ({ indexed with orders := e.orders.modify key fun o => { o with st := .cancelled } },
    [.cancelAck { clId, engId := ord.engId, status := ascii "cancelled" }])

/-- `on_cancel`. -/
def onCancel (e : OrderEngine) (session : ℕ) (cancel : CancelOrder) :
    OrderEngine × List OutMsg :=
  match e.orders.find? ⟨session, cancel.clId⟩ with
  | none =>
    (e, [.reject (makeReject cancel.clId .unknownClOrdId (ascii "unknown cl_id on this session"))])
  | some ord =>
    if ord.st ≠ .live then
      (e, [.reject (makeReject cancel.clId .alreadyTerminal (ascii "order is already terminal"))])
    else recordCancel e session cancel.clId ord

/-! ## `on_book` -/

/-- A fill computed against the candidate book and not yet applied. -/
structure StagedFill where
  /-- The order, reached through its live-index entry. -/
  key : OrderKey
  side : Side
  leavesAfter : ℤ
  deriving DecidableEq

/-- What the sweep has staged so far. -/
structure Sweep where
  staged : List StagedFill
  out : List Routed
  execId : ℕ
  deriving DecidableEq

/-- The body of the sweep's inner loop, for one entry of a live index. -/
def stageFill (e : OrderEngine) (book : Book) (side : Side) (acc : Sweep) (key : OrderKey) :
    Sweep :=
  match e.orders.find? key with
  | some ord =>
    let pxRaw := toRawPx cfg.inst ord.px
    if crossed side (oppPx book side) pxRaw then
      let fillQty := min ord.leaves (oppQty book side)
      let fill : Fill :=
        { clId := key.clId, engId := ord.engId, px := pxRaw, qty := fillQty,
          leaves := ord.leaves - fillQty, execId := acc.execId }
      { staged := acc.staged ++ [⟨key, side, fill.leaves⟩]
        out := acc.out ++ [⟨key.session, .fill fill⟩]
        execId := acc.execId + 1 }
    else acc
  -- an index entry is an `orders_` iterator, so there is always an order behind it
  | none => acc

/-- The sweep of one side; an absent opposite side fills nothing. -/
def sweepSide (e : OrderEngine) (book : Book) (acc : Sweep) (side : Side) : Sweep :=
  if oppQty book side ≤ 0 ∨ oppPx book side ≤ 0 then acc
  else (e.liveIndex side).keys.foldl (stageFill cfg e book side) acc

/-- The staged batch of a book: bids before asks. -/
def sweep (e : OrderEngine) (book : Book) : Sweep :=
  [Side.bid, Side.ask].foldl (sweepSide cfg e book) ⟨[], [], e.nextExecId⟩

/-- Apply one staged fill; a completed order leaves its live index. -/
def commitFill (e : OrderEngine) (f : StagedFill) : OrderEngine :=
  let filled :=
    { e with orders := e.orders.modify f.key fun o => { o with leaves := f.leavesAfter } }
  if f.leavesAfter = 0 then
    let indexed := filled.setLiveIndex f.side ((filled.liveIndex f.side).erase f.key)
    { indexed with orders := filled.orders.modify f.key fun o => { o with st := .filled } }
  else filled

/-- `on_book`. A book not newer than the last processed one is counted and ignored. -/
def onBook (e : OrderEngine) (book : Book) : OrderEngine × List Routed :=
  if e.bookSeen && book.mdSeq ≤ e.book.mdSeq then
    ({ e with staleBooksIgnored := e.staleBooksIgnored + 1 }, [])
  else
    let batch := sweep cfg e book
    let installed := { e with bookSeen := true, book, nextExecId := batch.execId }
    (batch.staged.foldl commitFill installed, batch.out)

/-! ## `end_session` -/

/-- The ack batch of `end_session`: one `CancelAck` per live order of the session. -/
def sessionAcks (e : OrderEngine) (session : ℕ) : List OutMsg :=
  (sessionRange e.orders session).filterMap fun p =>
    if p.2.st ≠ .live then none
    else some (.cancelAck { clId := p.1.clId, engId := p.2.engId, status := ascii "cancelled" })

/-- `end_session`: ack the live orders, then reap the session's whole key range. -/
def endSession (e : OrderEngine) (session : ℕ) : OrderEngine × List OutMsg :=
  ({ e with
      liveBids := eraseSession e.liveBids session
      liveAsks := eraseSession e.liveAsks session
      orders := eraseSession e.orders session
      entriesBySession := e.entriesBySession.erase session },
    e.sessionAcks session)

/-! ## Runs -/

/-- A call of one of the four entry points. -/
inductive Call
  | onNew (session : ℕ) (order : NewOrder)
  | onCancel (session : ℕ) (cancel : CancelOrder)
  | onBook (book : Book)
  | endSession (session : ℕ)
  deriving DecidableEq, Repr

/-- Direct replies, routed to the session that called. -/
def routeTo (session : ℕ) (r : OrderEngine × List OutMsg) : OrderEngine × List Routed :=
  (r.1, r.2.map fun msg => ⟨session, msg⟩)

/-- One call: the state after it and every report it produced, with its session. -/
def step (e : OrderEngine) : Call → OrderEngine × List Routed
  | .onNew session order => routeTo session (onNew cfg e session order)
  | .onCancel session cancel => routeTo session (onCancel e session cancel)
  | .onBook book => onBook cfg e book
  | .endSession session => routeTo session (endSession e session)

/-- A run of calls on a freshly constructed engine. -/
abbrev run (calls : List Call) : OrderEngine × List (Call × List Routed) :=
  Mealy.run (step cfg) {} calls

/-- The states of a freshly constructed engine after some run. -/
abbrev Reachable (e : OrderEngine) : Prop := Mealy.Reachable (step cfg) {} e

end OrderEngine

end MarketMaker
