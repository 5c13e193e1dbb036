import MarketMaker.Engine.Feed

/-!
# Post-only entry against the sweep

Two tests decide whether an order crosses the book: `on_new` compares the raw price of the wire, the
sweep of `on_book` the price it converts back from ticks. They agree, so an order that a post-only
entry lets through is not filled by the book it was checked against.
-/

namespace MarketMaker

namespace OrderEngine

variable {cfg : EngineConfig} {e : OrderEngine} {session : ℕ} {order : NewOrder}

/-! ## One order -/

/-- The reports contain a fill of the order `clId` of a session. -/
def FillsOrder (out : List Routed) (session : ℕ) (clId : Bytes) : Prop :=
  ∃ fill : Fill, ⟨session, .fill fill⟩ ∈ out ∧ fill.clId = clId

/-- The reply of `on_new` is a post-only reject. -/
def IsPostOnlyReject (out : List OutMsg) : Prop :=
  ∃ reject : Reject, out = [.reject reject] ∧ reject.code = RejectCode.postOnlyCross.toString

/-- What `on_new` does with an order that only the post-only check can refuse. -/
theorem onNew_of_admissible (hdup : e.isDuplicate session order.clId = false)
    (hvalid : validateOrder cfg.inst order.symbol order.side order.px order.qty = none)
    (hroom : e.liveCount session < cfg.inst.maxLiveOrders.toNat) :
    ∃ side, ∀ postOnly,
      onNew cfg e session { order with postOnly } =
        if postOnly && crosses e.book side order.px then
          recordReject e session { order with postOnly } .postOnlyCross
            (ascii "post-only order would cross the book")
        else recordAccept cfg e session { order with postOnly } side := by
  obtain ⟨side, hside⟩ := sideFromWire_of_valid (validOrder_of_validateOrder hvalid).side
  refine ⟨side, fun postOnly => ?_⟩
  rw [onNew]
  dsimp only
  rw [hdup, if_neg Bool.false_ne_true, hvalid]
  dsimp only
  rw [if_neg (Nat.not_le.mpr hroom), hside]

/-- The fills of a batch are those of its orders. -/
theorem fillsOrder_fillsFrom {book : Book} {n : ℕ} {l : List (OrderKey × Order)} {clId : Bytes} :
    FillsOrder (fillsFrom cfg book n l) session clId ↔ ∃ ord, (⟨session, clId⟩, ord) ∈ l := by
  constructor
  · rintro ⟨fill, hmem, rfl⟩
    obtain ⟨key, ord, execId, hl, heq⟩ := mem_fillsFrom hmem
    obtain ⟨rfl, hfill⟩ := Routed.mk.inj heq
    cases hfill
    exact ⟨ord, hl⟩
  · rintro ⟨ord, hl⟩
    induction l generalizing n with
    | nil => cases hl
    | cons p l ih =>
      rcases List.mem_cons.mp hl with rfl | hl
      · exact ⟨fillOf cfg book ⟨session, clId⟩ ord n, List.mem_cons_self, rfl⟩
      · obtain ⟨fill, hmem, hid⟩ := ih hl
        exact ⟨fill, List.mem_cons_of_mem _ hmem, hid⟩

/-- The book of the engine under a larger `md_seq` fills the stored orders that are live and cross
it. -/
theorem fillsOrder_represent (h : Inv cfg e) {n : ℕ} (hn : e.book.mdSeq < n)
    (session : ℕ) (clId : Bytes) :
    FillsOrder (onBook cfg e { e.book with mdSeq := n }).2 session clId ↔
      ∃ ord, e.orders.find? ⟨session, clId⟩ = some ord ∧ ord.st = .live ∧
        crosses e.book ord.side (toRawPx cfg.inst ord.px) = true := by
  have hfresh : e.isFresh { e.book with mdSeq := n } := fun hstale => Nat.not_le.mpr hn hstale.2
  rw [(onBook_of_fresh cfg h.indexed hfresh).2, fillsOrder_fillsFrom]
  refine exists_congr fun ord => ?_
  rw [mem_filledBy, isFilled, Bool.and_eq_true, decide_eq_true_eq]
  rfl

/-- The entry check refuses exactly the orders that the sweep would fill. -/
theorem postOnly_iff_fills (h : Inv cfg e) (hdup : e.isDuplicate session order.clId = false)
    (hvalid : validateOrder cfg.inst order.symbol order.side order.px order.qty = none)
    (hroom : e.liveCount session < cfg.inst.maxLiveOrders.toNat) {n : ℕ} (hn : e.book.mdSeq < n) :
    IsPostOnlyReject (onNew cfg e session { order with postOnly := true }).2 ↔
      FillsOrder
        (onBook cfg (onNew cfg e session { order with postOnly := false }).1
          { e.book with mdSeq := n }).2
        session order.clId := by
  obtain ⟨side, hnew⟩ := onNew_of_admissible hdup hvalid hroom
  have haccept := hnew false
  rw [Bool.false_and, if_neg Bool.false_ne_true] at haccept
  have hinv := inv_onNew h session { order with postOnly := false }
  rw [haccept] at hinv ⊢
  -- the accepted order is stored at its key, and the book is still the one it was checked against
  have hbook : (recordAccept cfg e session { order with postOnly := false } side).1.book =
      e.book := by
    simp [recordAccept]
  have hfills := fillsOrder_represent hinv (by rwa [hbook]) session order.clId
  rw [hbook] at hfills
  rw [hfills, orders_recordAccept, OrderedMap.find?_insert_self, hnew true, Bool.true_and]
  have hraw : toRawPx cfg.inst (toTicks cfg.inst order.px) = order.px :=
    toRawPx_toTicks (validOrder_of_validateOrder hvalid).tick
  split_ifs with hcross
  · refine iff_of_true ⟨_, rfl, rfl⟩ ⟨_, rfl, rfl, ?_⟩
    rwa [acceptedOrder, hraw]
  · refine iff_of_false ?_ ?_
    · rintro ⟨reject, hreject, -⟩
      cases hreject
    · rintro ⟨ord, hord, -, hcrosses⟩
      cases hord
      rw [acceptedOrder, hraw] at hcrosses
      exact hcross hcrosses

/-! ## A run of post-only accepts -/

/-- The call neither installs a book nor places an order that may cross. -/
def Call.IsPassive (e : OrderEngine) : Call → Prop
  | .onNew _ order => order.postOnly = true
  | .onBook book => ¬e.isFresh book
  | _ => True

/-- No live order with an id from `n` on crosses the book. -/
def NoneCross (cfg : EngineConfig) (e : OrderEngine) (n : ℕ) : Prop :=
  ∀ k ord, e.orders.find? k = some ord → ord.st = .live → n ≤ ord.engId →
    crosses e.book ord.side (toRawPx cfg.inst ord.px) = false

/-- An order that `on_new` decides to accept although it is post-only does not cross. -/
theorem not_crosses_of_accept {duplicate : Bool} {live : ℕ} {book : Book} {side : Side}
    (hdecide : decideNew cfg duplicate live book order = .accept side)
    (hpost : order.postOnly = true) :
    crosses book side (toRawPx cfg.inst (toTicks cfg.inst order.px)) = false := by
  rw [decideNew] at hdecide
  by_cases hdup : duplicate = true
  · rw [if_pos hdup] at hdecide
    cases hdecide
  rw [if_neg hdup] at hdecide
  cases hvalid : validateOrder cfg.inst order.symbol order.side order.px order.qty with
  | some code =>
    rw [hvalid] at hdecide
    cases hdecide
  | none =>
    rw [hvalid] at hdecide
    dsimp only at hdecide
    by_cases hcap : cfg.inst.maxLiveOrders.toNat ≤ live
    · rw [if_pos hcap] at hdecide
      cases hdecide
    rw [if_neg hcap] at hdecide
    cases hside : sideFromWire order.side with
    | none =>
      rw [hside] at hdecide
      cases hdecide
    | some side' =>
      rw [hside] at hdecide
      dsimp only at hdecide
      split_ifs at hdecide with hcross
      cases hdecide
      rw [toRawPx_toTicks (validOrder_of_validateOrder hvalid).tick]
      rwa [hpost, Bool.true_and, Bool.not_eq_true] at hcross

/-- A passive call leaves the book alone and adds no order that crosses it. -/
theorem NoneCross.step {n : ℕ} (h : NoneCross cfg e n) {call : Call} (hcall : call.IsPassive e) :
    NoneCross cfg (step cfg e call).1 n ∧ (OrderEngine.step cfg e call).1.book = e.book ∧
      (OrderEngine.step cfg e call).1.bookSeen = e.bookSeen := by
  cases call with
  | onNew session order =>
    obtain ⟨hbook, hseen⟩ :=
      book_step_of_not_book cfg e (rfl : (Call.onNew session order).mdSeq? = none)
    refine ⟨?_, hbook, hseen⟩
    intro k ord hord hlive hid
    rw [hbook]
    simp only [OrderEngine.step, routeTo, onNew_eq] at hord
    cases hdecide : decideNew cfg (e.isDuplicate session order.clId) (e.liveCount session) e.book
        order with
    | duplicate =>
      rw [hdecide] at hord
      exact h k ord hord hlive hid
    | impossible =>
      rw [hdecide] at hord
      exact h k ord hord hlive hid
    | reject code reason =>
      -- a tombstone is not live
      rw [hdecide] at hord
      simp only [applyDecision, recordReject, OrderedMap.find?_insert] at hord
      split_ifs at hord
      · cases hord
        cases hlive
      · exact h k ord hord hlive hid
    | accept side =>
      rw [hdecide] at hord
      simp only [applyDecision, orders_recordAccept, OrderedMap.find?_insert] at hord
      split_ifs at hord
      · cases hord
        exact not_crosses_of_accept hdecide hcall
      · exact h k ord hord hlive hid
  | onCancel session cancel =>
    obtain ⟨hbook, hseen⟩ :=
      book_step_of_not_book cfg e (rfl : (Call.onCancel session cancel).mdSeq? = none)
    refine ⟨?_, hbook, hseen⟩
    intro k ord hord hlive hid
    rw [hbook]
    have hspec := onCancel_spec e session cancel
    simp only [OrderEngine.step, routeTo] at hord
    generalize onCancel e session cancel = out at hspec hord
    cases hspec with
    | unknown _ => exact h k ord hord hlive hid
    | terminal _ _ => exact h k ord hord hlive hid
    | cancelled used live =>
      rw [orders_recordCancel, OrderedMap.find?_modify] at hord
      split_ifs at hord
      · obtain ⟨ord', -, rfl⟩ := Option.map_eq_some_iff.mp hord
        cases hlive
      · exact h k ord hord hlive hid
  | onBook book =>
    rw [OrderEngine.step, onBook_of_not_fresh hcall]
    exact ⟨h, rfl, rfl⟩
  | endSession session =>
    refine ⟨?_, rfl, rfl⟩
    intro k ord hord hlive hid
    change (eraseSession e.orders session).find? k = some ord at hord
    rw [find?_eraseSession] at hord
    split_ifs at hord
    exact h k ord hord hlive hid

/-- Ids accepted in a run are at least the next one before it. -/
theorem le_of_mem_ackIds (h : Inv cfg e) (calls : List Call) {id : ℕ}
    (hid : id ∈ ackIds (Mealy.run (step cfg) e calls).2) : e.nextEngId ≤ id := by
  induction calls generalizing e with
  | nil => cases hid
  | cons call calls ih =>
    rw [Mealy.run, ackIds, List.flatMap_cons, List.filterMap_append, List.mem_append] at hid
    rcases ackIds_step cfg h.indexed call with ⟨hnone, hnext⟩ | ⟨hone, hnext⟩
    · rcases hid with hid | hid
      · rw [hnone] at hid
        cases hid
      · rw [← hnext]
        exact ih (inv_step h call) hid
    · rcases hid with hid | hid
      · rw [hone, List.mem_singleton] at hid
        exact hid.ge
      · have hle := ih (inv_step h call) hid
        omega

theorem noneCross_run {n : ℕ} (h : NoneCross cfg e n) (calls : List Call)
    (hcalls : ∀ call ∈ calls, call.IsPassive e) :
    NoneCross cfg (Mealy.run (step cfg) e calls).1 n ∧
      (Mealy.run (step cfg) e calls).1.book = e.book := by
  induction calls generalizing e with
  | nil => exact ⟨h, rfl⟩
  | cons call calls ih =>
    obtain ⟨hnext, hbook, hseen⟩ := h.step (hcalls call List.mem_cons_self)
    have hpassive : ∀ c ∈ calls, c.IsPassive (step cfg e call).1 := by
      intro c hc
      have hc' := hcalls c (List.mem_cons_of_mem _ hc)
      cases c with
      | onBook book => rwa [Call.IsPassive, isFresh, hbook, hseen]
      | _ => exact hc'
    obtain ⟨hrun, hbook'⟩ := ih hnext hpassive
    exact ⟨hrun, hbook'.trans hbook⟩

/-- In every reachable state the post-only check refuses exactly the orders that the sweep would
fill if they were accepted; and after any run of post-only orders the current book, presented again,
fills none that the run has accepted. -/
theorem run_postOnly (cfg : EngineConfig) (calls : List Call) :
    let e := (run cfg calls).1
    (∀ (session : ℕ) (order : NewOrder) (n : ℕ), e.isDuplicate session order.clId = false →
      validateOrder cfg.inst order.symbol order.side order.px order.qty = none →
      e.liveCount session < cfg.inst.maxLiveOrders.toNat → e.book.mdSeq < n →
      (IsPostOnlyReject (onNew cfg e session { order with postOnly := true }).2 ↔
        FillsOrder
          (onBook cfg (onNew cfg e session { order with postOnly := false }).1
            { e.book with mdSeq := n }).2
          session order.clId)) ∧
    ∀ entries : List Call, (∀ call ∈ entries, call.IsPassive e) →
      let r := Mealy.run (step cfg) e entries
      ∀ (n session : ℕ) (fill : Fill), r.1.book.mdSeq < n →
        ⟨session, .fill fill⟩ ∈ (onBook cfg r.1 { r.1.book with mdSeq := n }).2 →
          fill.engId ∉ ackIds r.2 := by
  intro e
  have hinv : Inv cfg e := inv_of_reachable ⟨calls, rfl⟩
  refine ⟨fun session order n hdup hvalid hroom hn => postOnly_iff_fills hinv hdup hvalid hroom hn,
    ?_⟩
  intro entries hentries r n session fill hn hfill hacked
  -- no id handed out by now is one the run accepts
  have hstart : NoneCross cfg e e.nextEngId := by
    intro k ord hord hlive hid
    have hlt := (hinv.engId k ord hord (by rw [hlive]; decide)).2
    exact absurd hid (Nat.not_le.mpr hlt)
  obtain ⟨hnone, hbook⟩ := noneCross_run hstart entries hentries
  have hinv' : Inv cfg r.1 := by
    refine inv_of_reachable ⟨calls ++ entries, ?_⟩
    rw [Mealy.run_append]
  have hbook' : r.1.book = e.book := hbook
  have hfresh : r.1.isFresh { r.1.book with mdSeq := n } :=
    fun hstale => Nat.not_le.mpr hn hstale.2
  rw [(onBook_of_fresh cfg hinv'.indexed hfresh).2] at hfill
  obtain ⟨key, ord, execId, hmem, heq⟩ := mem_fillsFrom hfill
  obtain ⟨hord, hfilled⟩ := mem_filledBy.mp hmem
  obtain ⟨-, hmsg⟩ := Routed.mk.inj heq
  cases hmsg
  rw [isFilled, Bool.and_eq_true, decide_eq_true_eq] at hfilled
  have hle : e.nextEngId ≤ ord.engId := le_of_mem_ackIds hinv entries hacked
  have hclear := hnone key ord hord hfilled.1 hle
  rw [hbook] at hclear
  have hcross : crosses r.1.book ord.side (toRawPx cfg.inst ord.px) = true := hfilled.2
  rw [hbook', hclear] at hcross
  cases hcross

end OrderEngine

end MarketMaker
