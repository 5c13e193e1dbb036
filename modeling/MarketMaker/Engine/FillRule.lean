import MarketMaker.Engine.Invariant

/-!
# The fill rule

`on_book` walks the live indexes, stages its fills and commits them while it erases from the set it
walked. The rule it implements needs none of that: scan every stored order in key order, bids before
asks, and let each live order that the opposite side of the book crosses trade once. `naiveBook` is
the rule, and `onBook_eq_naiveBook` the agreement: reports, order of reports and state.
-/

namespace MarketMaker

namespace OrderEngine

/-! ## The rule -/

/-- The order is live, the opposite side of the book is present, and it crosses the order's
limit. -/
def Trades (cfg : EngineConfig) (book : Book) (ord : Order) : Prop :=
  ord.st = .live ∧
    match ord.side with
    | .bid => 0 < book.askQty ∧ 0 < book.askPx ∧ book.askPx ≤ toRawPx cfg.inst ord.px
    | .ask => 0 < book.bidQty ∧ 0 < book.bidPx ∧ toRawPx cfg.inst ord.px ≤ book.bidPx

instance (cfg : EngineConfig) (book : Book) (ord : Order) : Decidable (Trades cfg book ord) := by
  unfold Trades
  split <;> infer_instance

/-- The smaller of what is left of the order and what the opposite side shows. -/
def tradedQty (book : Book) (ord : Order) : ℤ :=
  match ord.side with
  | .bid => min ord.leaves book.askQty
  | .ask => min ord.leaves book.bidQty

/-- The fills of one side, scanning all stored orders. -/
def scanSide (cfg : EngineConfig) (book : Book) (side : Side) :
    ℕ → List (OrderKey × Order) → List Routed
  | _, [] => []
  | execId, (key, ord) :: rest =>
    if ord.side = side ∧ Trades cfg book ord then
      { session := key.session
        msg := .fill
          { clId := key.clId, engId := ord.engId, px := toRawPx cfg.inst ord.px,
            qty := tradedQty book ord, leaves := ord.leaves - tradedQty book ord, execId } } ::
        scanSide cfg book side (execId + 1) rest
    else scanSide cfg book side execId rest

/-- The fills of a book: bids before asks, numbered consecutively. -/
def scanOrders (cfg : EngineConfig) (e : OrderEngine) (book : Book) : List Routed :=
  let bids := scanSide cfg book .bid e.nextExecId e.orders.toList
  bids ++ scanSide cfg book .ask (e.nextExecId + bids.length) e.orders.toList

/-- An order after the book. -/
def traded (cfg : EngineConfig) (book : Book) (ord : Order) : Order :=
  if Trades cfg book ord then
    { ord with
      leaves := ord.leaves - tradedQty book ord
      st := if ord.leaves - tradedQty book ord = 0 then .filled else ord.st }
  else ord

/-- The index entries whose orders the book leaves live. -/
def stillLive (cfg : EngineConfig) (e : OrderEngine) (book : Book) (live : OrderedSet OrderKey) :
    OrderedSet OrderKey :=
  live.filter fun key _ =>
    (e.orders.find? key).all fun ord => (traded cfg book ord).st = .live

/-- The rule: the book is installed, the orders trade, and nothing else changes. -/
def naiveBook (cfg : EngineConfig) (e : OrderEngine) (book : Book) : OrderEngine × List Routed :=
  ({ e with
      book
      bookSeen := true
      nextExecId := e.nextExecId + (scanOrders cfg e book).length
      orders := e.orders.mapVal fun _ ord => traded cfg book ord
      liveBids := stillLive cfg e book e.liveBids
      liveAsks := stillLive cfg e book e.liveAsks },
    scanOrders cfg e book)

/-! ## The sweep follows the rule -/

variable {cfg : EngineConfig} {e : OrderEngine} {book : Book}

theorem isFilled_iff_trades (ord : Order) : isFilled cfg book ord = true ↔ Trades cfg book ord := by
  rw [isFilled, Trades, Bool.and_eq_true, decide_eq_true_eq]
  refine and_congr_right fun _ => ?_
  cases ord.side <;>
    simp only [crosses, oppQty, oppPx, crossed, Bool.and_eq_true, and_assoc] <;>
    exact and_congr decide_eq_true_iff (and_congr decide_eq_true_iff decide_eq_true_iff)

theorem fillQty_eq_tradedQty (ord : Order) : fillQty book ord = tradedQty book ord := by
  rw [fillQty, tradedQty]
  cases ord.side <;> rfl

theorem swept_eq_traded (ord : Order) : swept cfg book ord = traded cfg book ord := by
  rw [traded]
  by_cases htrades : Trades cfg book ord
  · rw [if_pos htrades, swept_of_isFilled ((isFilled_iff_trades ord).mpr htrades),
      fillQty_eq_tradedQty, htrades.1]
  · rw [if_neg htrades, swept_of_not_isFilled (mt (isFilled_iff_trades ord).mp htrades)]

/-- The scan numbers the orders of a side that the book fills, in key order. -/
theorem scanSide_eq (cfg : EngineConfig) (book : Book) (side : Side) (execId : ℕ)
    (l : List (OrderKey × Order)) :
    scanSide cfg book side execId l =
      fillsFrom cfg book execId
        (l.filter fun p => p.2.side = side ∧ isFilled cfg book p.2) := by
  induction l generalizing execId with
  | nil => rfl
  | cons p l ih =>
    rw [scanSide]
    by_cases hfill : p.2.side = side ∧ Trades cfg book p.2
    · have hpos : p.2.side = side ∧ isFilled cfg book p.2 = true :=
        ⟨hfill.1, (isFilled_iff_trades p.2).mpr hfill.2⟩
      rw [if_pos hfill, List.filter_cons_of_pos (by simpa using hpos), fillsFrom, ih, fillOf,
        fillQty_eq_tradedQty]
    · have hneg : ¬(p.2.side = side ∧ isFilled cfg book p.2 = true) := by
        rwa [isFilled_iff_trades]
      rw [if_neg hfill, List.filter_cons_of_neg (by simpa using hneg), ih]

theorem length_fillsFrom (n : ℕ) (l : List (OrderKey × Order)) :
    (fillsFrom cfg book n l).length = l.length := by
  induction l generalizing n with
  | nil => rfl
  | cons p l ih => rw [fillsFrom, List.length_cons, List.length_cons, ih]

theorem scanOrders_eq (cfg : EngineConfig) (e : OrderEngine) (book : Book) :
    scanOrders cfg e book = fillsFrom cfg book e.nextExecId (filledBy cfg book e.orders) := by
  rw [scanOrders, filledBy, fillsFrom_append]
  simp only [scanSide_eq, length_fillsFrom, filledOn]

/-- An index in agreement with the orders keeps, after the book, the entries still live. -/
theorem liveIndex_eq_stillLive {e' : OrderEngine} (h : e.Indexed) (hi : Installed cfg e book e')
    (side : Side) : e'.liveIndex side = stillLive cfg e book (e.liveIndex side) := by
  refine OrderedMap.ext_keys fun k => ?_
  rw [stillLive, OrderedMap.mem_keys_filter_key, h side k, hi.indexed side k, hi.find?]
  constructor
  · rintro ⟨ord', hord', hst, hside⟩
    obtain ⟨ord, hord, rfl⟩ := Option.map_eq_some_iff.mp hord'
    refine ⟨?_, ord, hord, ((st_swept_eq_live_iff ord).mp hst).1, by rwa [side_swept] at hside⟩
    rw [hord, Option.all_some, ← swept_eq_traded, hst, decide_eq_true rfl]
  · rintro ⟨hstays, ord, hord, -, hside⟩
    rw [hord, Option.all_some, decide_eq_true_eq, ← swept_eq_traded] at hstays
    exact ⟨swept cfg book ord, by rw [hord]; rfl, hstays, by rwa [side_swept]⟩

theorem onBook_of_indexed (cfg : EngineConfig) (h : e.Indexed) (hfresh : e.isFresh book) :
    onBook cfg e book = naiveBook cfg e book := by
  obtain ⟨hi, hout⟩ := onBook_of_fresh cfg h hfresh
  refine Prod.ext ?_ (hout.trans (scanOrders_eq cfg e book).symm)
  have hbids := liveIndex_eq_stillLive h hi .bid
  have hasks := liveIndex_eq_stillLive h hi .ask
  have horders : (onBook cfg e book).1.orders = e.orders.mapVal fun _ ord =>
      traded cfg book ord := by
    rw [hi.orders]
    simp only [swept_eq_traded]
  have hexec : (onBook cfg e book).1.nextExecId =
      e.nextExecId + (scanOrders cfg e book).length := by
    rw [hi.nextExecId, scanOrders_eq, length_fillsFrom]
  -- every field of the state is accounted for
  generalize (onBook cfg e book).1 = e' at *
  obtain ⟨hbook, hseen, heng, -, hstale, hentries, -, -⟩ := hi
  cases e'
  simp only [naiveBook, OrderEngine.mk.injEq]
  exact ⟨hbook, hseen, heng, hexec, hstale, horders, hbids, hasks, hentries⟩

/-- In every reachable state `on_book` is the rule on a book that its guard accepts, and on any
other book it only counts it. -/
theorem run_onBook_eq_naiveBook (cfg : EngineConfig) (calls : List Call) (book : Book) :
    let e := (run cfg calls).1
    onBook cfg e book =
      if e.isFresh book then naiveBook cfg e book
      else ({ e with staleBooksIgnored := e.staleBooksIgnored + 1 }, []) := by
  intro e
  have hinv : Inv cfg e := inv_of_reachable ⟨calls, rfl⟩
  have hindexed : e.Indexed := hinv.indexed
  split_ifs with hfresh
  · exact onBook_of_indexed cfg hindexed hfresh
  · exact onBook_of_not_fresh hfresh

end OrderEngine

end MarketMaker
