import MarketMaker.Protocol
import Mathlib.Logic.Function.Basic

/-!
# The quoting strategy

`mmclient.strategy.Strategy`: the client's decision core, a pure state machine. A method takes the
state and its arguments and returns the new state and the commands. Python integers are `Int`;
counters that only count up from zero are `ℕ`.

`_orders` is a dict, which keeps insertion order: a list of orders with distinct ids. The three
dicts keyed by a side are functions of the side.
-/

namespace MarketMaker

/-- Decimal digits, as Python's string formatting prints an `int`. -/
def decimal (z : ℤ) : Bytes := ascii (toString z)

/-- `OState`. -/
inductive OState
  | pendingNew
  | live
  | pendingCancel
  deriving DecidableEq, Repr

/-- `_Order`: an order as the client sees it. -/
structure ClientOrder where
  clId : Bytes
  px : ℤ
  state : OState
  deriving DecidableEq, Repr

/-- `Cmd`. -/
inductive Cmd
  | send (msg : InMsg)
  | stopQuoting (reason : Bytes)
  deriving DecidableEq, Repr

/-- The constructor arguments of `Strategy`. -/
structure StrategyConfig where
  symbol : Bytes
  qty : ℤ
  maxQty : ℤ
  staleNs : ℤ
  deriving DecidableEq, Repr

/-- The mutable state of `Strategy`. -/
structure Strategy where
  epoch : ℕ := 0
  conflatedSeen : ℕ := 0
  orders : List ClientOrder := []
  current : Side → Option Bytes := fun _ => none
  nextCl : Side → ℕ := fun _ => 0
  rejectedPx : Side → Option ℤ := fun _ => none
  outSeq : ℕ := 0
  inSeq : ℕ := 0
  mdSeq : ℕ := 0
  lastTobNs : Option ℤ := none
  bidPx : Option ℤ := none
  askPx : Option ℤ := none
  stopped : Bool := false
  swept : Bool := false

/-- The client order id of the `n`-th order of a side, `"B-3"`. -/
def clIdOf (side : Side) (n : ℕ) : Bytes := side.wire ++ ascii "-" ++ decimal n

/-- `_side_of`. Only ids made by `clIdOf` are ever passed. -/
def sideOf (clId : Bytes) : Side := if clId.take 1 = Side.bid.wire then .bid else .ask

/-! ## Client order ids -/

private theorem ofNat_toUInt8_of_isDigit {c : Char} (h : c.isDigit = true) :
    Char.ofNat c.toNat.toUInt8.toNat = c := by
  simp only [Char.isDigit, Bool.and_eq_true, decide_eq_true_eq] at h
  have hle : c.toNat ≤ 57 := h.2
  rw [Nat.toUInt8_eq, UInt8.toNat_ofNat', Nat.mod_eq_of_lt (by omega), Char.ofNat_toNat]

/-- Distinct numbers print differently. -/
theorem decimal_natCast_injective : Function.Injective fun n : ℕ => decimal n := by
  -- the bytes determine the digit characters, and these the number
  have hback : ∀ n : ℕ, (decimal n).map (fun b => Char.ofNat b.toNat) = Nat.toDigits 10 n := by
    intro n
    change (n.repr.toList.map _).map _ = _
    rw [Nat.toList_repr, List.map_map]
    refine (List.map_congr_left fun c hc => ?_).trans (List.map_id _)
    exact ofNat_toUInt8_of_isDigit (Nat.isDigit_of_mem_toDigits (by decide) (by decide) hc)
  intro m n h
  have hdigits : Nat.toDigits 10 m = Nat.toDigits 10 n := by
    rw [← hback m, ← hback n]
    exact congrArg _ h
  rw [← Nat.ofDigitChars_ten_toDigits (n := m), hdigits, Nat.ofDigitChars_ten_toDigits]

@[simp]
theorem sideOf_clIdOf (side : Side) (n : ℕ) : sideOf (clIdOf side n) = side := by
  cases side <;> rfl

/-- No two orders of a session share an id. -/
theorem clIdOf_inj {side side' : Side} {m n : ℕ} (h : clIdOf side m = clIdOf side' n) :
    side = side' ∧ m = n := by
  have hside : side = side' := by
    rw [← sideOf_clIdOf side m, h, sideOf_clIdOf]
  subst hside
  exact ⟨rfl, decimal_natCast_injective (List.append_cancel_left h)⟩

namespace Strategy

variable (cfg : StrategyConfig)

/-- `self._orders.get(cl_id)`. -/
def getOrder (st : Strategy) (clId : Bytes) : Option ClientOrder :=
  st.orders.find? fun o => o.clId = clId

/-- Assign the state of the order at `clId`. -/
def setState (st : Strategy) (clId : Bytes) (state : OState) : Strategy :=
  { st with orders := st.orders.map fun o => if o.clId = clId then { o with state } else o }

/-! ## Lifecycle -/

/-- `on_connect`. -/
def onConnect (_st : Strategy) (epoch : ℕ) : Strategy × List Cmd := ({ epoch }, [])

/-- `on_disconnect`. -/
def onDisconnect (st : Strategy) : Strategy × List Cmd :=
  ({ st with
      orders := [], current := fun _ => none, bidPx := none, askPx := none, lastTobNs := none
      stopped := true },
    [.stopQuoting (ascii "disconnect")])

/-! ## Internals -/

/-- `_stop`. -/
def stop (st : Strategy) (reason : Bytes) : Strategy × List Cmd :=
  ({ st with stopped := true }, [.stopQuoting reason])

/-- `_advance_seq`; `none` is Python's `None`, the expected number. -/
def advanceSeq (st : Strategy) (seq : ℕ) : Strategy × Option (List Cmd) :=
  let expected := st.inSeq + 1
  if seq ≠ expected then
    let r := st.stop (ascii "inbound seq gap: expected " ++ decimal expected ++ ascii ", got " ++
      decimal seq)
    (r.1, some r.2)
  else ({ st with inSeq := seq }, none)

/-- `_cancel`. -/
def cancel (st : Strategy) (order : ClientOrder) : Strategy × Cmd :=
  let st := { st.setState order.clId .pendingCancel with outSeq := st.outSeq + 1 }
  (st, .send (.cancelOrder { seq := st.outSeq, epoch := st.epoch, clId := order.clId }))

/-- `_new`. -/
def new (st : Strategy) (side : Side) (px : ℤ) (mdSeq : ℕ) : Strategy × Cmd :=
  let n := st.nextCl side + 1
  let clId := clIdOf side n
  let st :=
    { st with
      nextCl := Function.update st.nextCl side n
      orders := st.orders ++ [{ clId, px, state := .pendingNew }]
      current := Function.update st.current side (some clId)
      outSeq := st.outSeq + 1 }
  (st, .send (.newOrder
    { seq := st.outSeq, epoch := st.epoch, mdSeq, clId, symbol := cfg.symbol, side := side.wire, px
      qty := min cfg.qty cfg.maxQty, postOnly := true }))

/-- `_retire`: the order leaves the map, and frees its side only if it still held it. -/
def retire (st : Strategy) (order : ClientOrder) : Strategy :=
  let side := sideOf order.clId
  { st with
    current :=
      if st.current side = some order.clId then Function.update st.current side none
      else st.current
    orders := st.orders.filter fun o => o.clId ≠ order.clId }

/-- The order a side currently quotes with. -/
def currentOrder (st : Strategy) (side : Side) : Option ClientOrder :=
  (st.current side).bind st.getOrder

/-- The part of `_quote` after the reject barrier. -/
def quoteUnbarred (st : Strategy) (side : Side) (desiredPx askPx bidPx : ℤ) (mdSeq : ℕ) :
    Strategy × List Cmd :=
  if side = .bid ∧ desiredPx ≥ askPx then (st, [])
  else if side = .ask ∧ desiredPx ≤ bidPx then (st, [])
  else
    match st.currentOrder side with
    | some order =>
      if order.state = .pendingNew then (st, [])
      else if order.px = desiredPx then (st, [])
      else
        let cancelled := st.cancel order
        let quoted := cancelled.1.new cfg side desiredPx mdSeq
        (quoted.1, [cancelled.2, quoted.2])
    | none =>
      let quoted := st.new cfg side desiredPx mdSeq
      (quoted.1, [quoted.2])

/-- `_quote`: the bar of a refused price comes first, and is lifted by any other price. -/
def quote (st : Strategy) (side : Side) (desiredPx askPx bidPx : ℤ) (mdSeq : ℕ) :
    Strategy × List Cmd :=
  match st.rejectedPx side with
  | some px =>
    if px = desiredPx then (st, [])
    else
      quoteUnbarred cfg { st with rejectedPx := Function.update st.rejectedPx side none } side
        desiredPx askPx bidPx mdSeq
  | none => quoteUnbarred cfg st side desiredPx askPx bidPx mdSeq

/-- `_reconsider`. -/
def reconsider (st : Strategy) (side : Side) : Strategy × List Cmd :=
  match st.bidPx, st.askPx with
  | some bidPx, some askPx =>
    let desired := match side with
      | .bid => bidPx
      | .ask => askPx
    st.quote cfg side desired askPx bidPx st.mdSeq
  | _, _ => (st, [])

/-! ## Inbound -/

/-- `_admit`; `none` means proceed. -/
def admitTob (st : Strategy) (tob : Tob) : Strategy × Option (List Cmd) :=
  if st.stopped then (st, some [])
  else if tob.epoch ≠ st.epoch then (st, some [])
  else
    match st.advanceSeq tob.seq with
    | (st, some gap) => (st, some gap)
    | (st, none) =>
      if tob.symbol ≠ cfg.symbol then
        let r := st.stop (ascii "unexpected symbol: " ++ tob.symbol ++ ascii ", expected " ++
          cfg.symbol)
        (r.1, some r.2)
      else (st, none)

/-- `on_tob`. -/
def onTob (st : Strategy) (tob : Tob) (nowNs : ℤ) : Strategy × List Cmd :=
  match st.admitTob cfg tob with
  | (st, some refused) => (st, refused)
  | (st, none) =>
    if tob.mdSeq < st.mdSeq then
      st.stop (ascii "md_seq decreased: " ++ decimal st.mdSeq ++ ascii " -> " ++ decimal tob.mdSeq)
    else
      -- the feed is alive even when it restates the same book
      let st := { st with lastTobNs := some nowNs }
      if tob.mdSeq = st.mdSeq then (st, [])
      else
        let conflated := st.mdSeq ≠ 0 ∧ tob.mdSeq > st.mdSeq + 1
        let st :=
          { st with
            conflatedSeen := if conflated then st.conflatedSeen + 1 else st.conflatedSeen
            mdSeq := tob.mdSeq
            bidPx := some tob.bidPx
            askPx := some tob.askPx }
        let bid := st.quote cfg .bid tob.bidPx tob.askPx tob.bidPx tob.mdSeq
        let ask := bid.1.quote cfg .ask tob.askPx tob.askPx tob.bidPx tob.mdSeq
        (ask.1, bid.2 ++ ask.2)

/-- What `on_report` does with a report that names an order in the map. -/
def applyReport (st : Strategy) (order : ClientOrder) : OutMsg → Strategy × List Cmd
  | .orderAck _ =>
    if order.state = .pendingNew then
      (st.setState order.clId .live).reconsider cfg (sideOf order.clId)
    else (st, [])
  | .cancelAck _ => (st.retire order, [])
  | .fill m => if m.leaves = 0 then (st.retire order, []) else (st, [])
  | .reject _ =>
    let side := sideOf order.clId
    let barred :=
      if st.current side = some order.clId then
        { st with rejectedPx := Function.update st.rejectedPx side (some order.px) }
      else st
    (barred.retire order, [])
  | .tob _ => (st, [])

/-- The part of `on_report` after ticks have been dispatched. -/
def onOrderReport (st : Strategy) (msg : OutMsg) : Strategy × List Cmd :=
  if st.stopped ∨ msg.epoch ≠ st.epoch then (st, [])
  else
    match st.advanceSeq msg.seq with
    | (st, some gap) => (st, gap)
    | (st, none) =>
      match msg.clId.bind st.getOrder with
      | none => (st, [])
      | some order => st.applyReport cfg order msg

/-- `on_report`. -/
def onReport (st : Strategy) (msg : OutMsg) (nowNs : ℤ) : Strategy × List Cmd :=
  match msg with
  | .tob tob => st.onTob cfg tob nowNs
  | msg => st.onOrderReport cfg msg

/-- The orders that the stale sweep cancels. -/
def resting (st : Strategy) : List ClientOrder :=
  st.orders.filter fun o => o.state = .pendingNew ∨ o.state = .live

/-- Cancel a list of orders, in order. -/
def cancelAll (st : Strategy) : List ClientOrder → Strategy × List Cmd
  | [] => (st, [])
  | order :: rest =>
    let first := st.cancel order
    let others := cancelAll first.1 rest
    (others.1, first.2 :: others.2)

/-- `on_timer`: the stale-feed check and its one-shot sweep. -/
def onTimer (st : Strategy) (nowNs : ℤ) : Strategy × List Cmd :=
  match st.lastTobNs with
  | none => (st, [])
  | some last =>
    if st.swept then (st, [])
    else
      let age := nowNs - last
      if age ≤ cfg.staleNs then (st, [])
      else
        let announced : List Cmd :=
          if st.stopped then []
          else [.stopQuoting (ascii "stale feed: " ++ decimal age ++
            ascii " ns since the last book, limit " ++ decimal cfg.staleNs)]
        let swept := ({ st with stopped := true, swept := true } : Strategy).cancelAll st.resting
        (swept.1, announced ++ swept.2)

end Strategy

end MarketMaker
