import MarketMaker.Engine.OrderStep
import MarketMaker.Link.Details

/-!
# What the engine answers

Every report of the engine is in the domains of the wire: its order id is the one of a command that
was decoded, its texts are texts of the source, and the price and the quantities of a fill are
within the bounds of a live order.
-/

namespace MarketMaker

open Client (FitsIdentifier FitsFields FitsReject FitsOrderAck FitsCancelAck FitsFill maxTextLen)

/-- An instrument whose symbol is an identifier and whose bounds are `int64`s. -/
structure FitsInstrument (inst : Instrument) : Prop where
  symbol : FitsIdentifier maxSymbolLen inst.symbol
  minPrice : InInt64 inst.minPrice
  maxPrice : InInt64 inst.maxPrice
  maxOrderQty : InInt64 inst.maxOrderQty

namespace OrderEngine

open Link

variable {cfg : EngineConfig} {e : OrderEngine}

/-- A call whose command was decoded. -/
def FitsCall : Call → Prop
  | .onNew _ order => Readable (.newOrder order)
  | .onCancel _ cancel => Readable (.cancelOrder cancel)
  | .onBook _ => True
  | .endSession _ => True

/-- The ids of the stored orders are identifiers. -/
structure Fits (cfg : EngineConfig) (e : OrderEngine) : Prop where
  inv : Inv cfg e
  clId : ∀ key ord, e.orders.find? key = some ord → FitsIdentifier maxClIdLen key.clId

theorem fits_init (cfg : EngineConfig) : Fits cfg {} where
  inv := inv_init cfg
  clId := by simp

/-- What is stored at a key after a call was there before, or names the key. -/
theorem Fits.step (h : Fits cfg e) {call : Call} (hcall : FitsCall call) :
    Fits cfg (step cfg e call).1 where
  inv := inv_step h.inv call
  clId key ord hord := by
    have hstep := orderStep_step h.inv call key
    rw [hord] at hstep
    generalize hbefore : e.orders.find? key = stored at hstep
    generalize reportsFor key (OrderEngine.step cfg e call).2 = out at hstep
    cases hstep with
    | quiet _ _ _ => exact h.clId key ord hbefore
    | duplicate _ => exact h.clId key ord hbefore
    | rejected hid _ _ => exact hid ▸ hcall.1
    | accepted hid _ _ _ _ => exact hid ▸ hcall.1
    | terminal _ _ => exact h.clId key ord hbefore
    | cancelled _ _ => exact h.clId key _ hbefore
    | filled _ _ _ => exact h.clId key _ hbefore

/-! ## Reports -/

/-- The reasons that the engine gives, and a session that does not ask it. -/
def reasons : List String :=
  ["unknown symbol", "side must be \"B\" or \"S\"", "px is not a multiple of tick_size",
    "qty is not a multiple of lot_size", "qty must be positive", "qty exceeds max_order_qty",
    "px outside [min_price, max_price]", "cl_id already used on this session",
    "session already holds max_live_orders live orders", "post-only order would cross the book",
    "unknown cl_id on this session", "order is already terminal",
    "command epoch does not match this session's epoch",
    "message exceeds the 65536-byte cap"]

/-- The code of a reject. -/
theorem plain_code (code : RejectCode) :
    Plain code.toString ∧ code.toString.length ≤ maxTextLen := by
  cases code <;> decide +kernel

theorem plain_reasons : ∀ reason ∈ reasons,
    Plain (ascii reason) ∧ (ascii reason).length ≤ maxTextLen := by
  decide +kernel

theorem fits_makeReject {clId reason : Bytes} (code : RejectCode)
    (hclId : FitsIdentifier maxClIdLen clId) (hreason : Plain reason)
    (hlength : reason.length ≤ maxTextLen) :
    FitsFields (.reject (makeReject clId code reason)) where
  v := rfl
  clId := hclId
  code := (plain_code code).1.fits (plain_code code).2
  reason := hreason.fits hlength

theorem plain_validationReason (code : RejectCode) (order : NewOrder) :
    Plain (validationReason code order) ∧
      (validationReason code order).length ≤ maxTextLen := by
  have hcode := plain_code code
  cases code with
  | qtyLimit =>
    rw [validationReason]
    split_ifs
    · exact plain_reasons _ (by simp [reasons])
    · exact plain_reasons _ (by simp [reasons])
  | unknownSymbol | badSide | tickSize | lotSize | priceRange =>
    exact plain_reasons _ (by simp [reasons])
  | _ => exact hcode

theorem fits_onNew {session : ℕ} {order : NewOrder} (hcall : FitsCall (.onNew session order)) :
    ∀ msg ∈ (onNew cfg e session order).2, FitsFields msg := by
  have hreject : ∀ code reason, Plain reason ∧ reason.length ≤ maxTextLen →
      ∀ msg ∈ [OutMsg.reject (makeReject order.clId code reason)], FitsFields msg := by
    intro code reason hreason msg hmsg
    rw [List.mem_singleton.mp hmsg]
    exact fits_makeReject code hcall.1 hreason.1 hreason.2
  rw [onNew_eq]
  generalize hdecision : decideNew cfg (e.isDuplicate session order.clId)
    (e.liveCount session) e.book
    order = decision
  cases decision with
  | duplicate => exact hreject _ _ (plain_reasons _ (by simp [reasons]))
  | impossible => exact fun msg hmsg => by cases hmsg
  | accept side =>
    intro msg hmsg
    rw [List.mem_singleton.mp hmsg]
    exact ⟨rfl, hcall.1, rfl⟩
  | reject code reason =>
    refine hreject code reason ?_
    -- the texts of the checks
    rw [decideNew] at hdecision
    rw [ite_eq_iff] at hdecision
    obtain ⟨-, hdecision⟩ := hdecision.resolve_left fun h => by cases h.2
    cases hvalid : validateOrder cfg.inst order.symbol order.side order.px order.qty with
    | some code' =>
      rw [hvalid] at hdecision
      cases hdecision
      exact plain_validationReason code order
    | none =>
      rw [hvalid] at hdecision
      dsimp only at hdecision
      rcases ite_eq_iff.mp hdecision with ⟨-, hdecision⟩ | ⟨-, hdecision⟩
      · cases hdecision
        exact plain_reasons _ (by simp [reasons])
      · cases hside : sideFromWire order.side with
        | none =>
          rw [hside] at hdecision
          cases hdecision
        | some side =>
          rw [hside] at hdecision
          obtain ⟨-, hdecision⟩ := (ite_eq_iff.mp hdecision).resolve_right fun h => by cases h.2
          cases hdecision
          exact plain_reasons _ (by simp [reasons])

theorem fits_onCancel {session : ℕ} {cancel : CancelOrder}
    (hcall : FitsCall (.onCancel session cancel)) :
    ∀ msg ∈ (onCancel e session cancel).2, FitsFields msg := by
  have hspec := onCancel_spec e session cancel
  generalize onCancel e session cancel = out at hspec
  intro msg hmsg
  cases hspec with
  | unknown _ =>
    have hreason : "unknown cl_id on this session" ∈ reasons := by simp [reasons]
    rw [List.mem_singleton.mp hmsg]
    exact fits_makeReject _ hcall (plain_reasons _ hreason).1 (plain_reasons _ hreason).2
  | terminal _ _ =>
    have hreason : "order is already terminal" ∈ reasons := by simp [reasons]
    rw [List.mem_singleton.mp hmsg]
    exact fits_makeReject _ hcall (plain_reasons _ hreason).1 (plain_reasons _ hreason).2
  | cancelled _ _ =>
    rw [List.mem_singleton.mp hmsg]
    exact ⟨rfl, hcall, rfl⟩

/-- A fill takes no more than is left, of an order within the bounds of the instrument. -/
theorem fits_fillOf (hinst : FitsInstrument cfg.inst) (h : Fits cfg e) {book : Book}
    {key : OrderKey}
    {ord : Order} (hord : e.orders.find? key = some ord) (hfilled : isFilled cfg book ord = true)
    (execId : ℕ) : FitsFields (.fill (fillOf cfg book key ord execId)) := by
  have hlive := h.inv.live key ord hord (st_of_isFilled hfilled)
  have hcrosses : crosses book ord.side (toRawPx cfg.inst ord.px) = true := by
    rw [isFilled, Bool.and_eq_true] at hfilled
    exact hfilled.2
  have hopp : 0 < oppQty book ord.side := by
    rw [crosses, Bool.and_eq_true, Bool.and_eq_true] at hcrosses
    exact of_decide_eq_true hcrosses.1.1
  have hqty : 0 < fillQty book ord ∧ fillQty book ord ≤ ord.leaves := by
    have hpos := hlive.leaves_pos
    rw [fillQty]
    omega
  have hmin := hinst.minPrice
  have hmax := hinst.maxPrice
  have hcap := hinst.maxOrderQty
  have hleaves := hlive.leaves_le
  have hlow := hlive.px_ge
  have hhigh := hlive.px_le
  rw [InInt64] at hmin hmax hcap
  refine ⟨rfl, h.clId key ord hord, ?_, ?_, ?_⟩
  · change InInt64 (toRawPx cfg.inst ord.px)
    rw [InInt64]
    omega
  · change InInt64 (fillQty book ord)
    rw [InInt64]
    omega
  · change InInt64 (ord.leaves - fillQty book ord)
    rw [InInt64]
    omega

theorem fits_onBook (hinst : FitsInstrument cfg.inst) (h : Fits cfg e) (book : Book) :
    ∀ r ∈ (onBook cfg e book).2, FitsFields r.msg := by
  intro r hr
  by_cases hfresh : e.isFresh book
  · rw [(onBook_of_fresh cfg h.inv.indexed hfresh).2] at hr
    obtain ⟨key, ord, execId, hmem, rfl⟩ := mem_fillsFrom hr
    obtain ⟨hord, hfilled⟩ := mem_filledBy.mp hmem
    exact fits_fillOf hinst h hord hfilled execId
  · rw [onBook_of_not_fresh hfresh] at hr
    cases hr

/-- Every report of a call on a decoded command is in the domains of the wire. -/
theorem fits_reply (hinst : FitsInstrument cfg.inst) (h : Fits cfg e) {call : Call}
    (hcall : FitsCall call) : ∀ r ∈ (step cfg e call).2, FitsFields r.msg := by
  have hroute : ∀ (session : ℕ) (out : OrderEngine × List OutMsg), (∀ msg ∈ out.2, FitsFields msg) →
      ∀ r ∈ (routeTo session out).2, FitsFields r.msg := by
    intro session out hout r hr
    obtain ⟨msg, hmsg, rfl⟩ := List.mem_map.mp hr
    exact hout msg hmsg
  cases call with
  | onNew session order => exact hroute session _ (fits_onNew hcall)
  | onCancel session cancel => exact hroute session _ (fits_onCancel hcall)
  | onBook book => exact fits_onBook hinst h book
  | endSession session =>
    refine hroute session _ fun msg hmsg => ?_
    obtain ⟨⟨key, ord⟩, hmem, hack⟩ := List.mem_filterMap.mp hmsg
    rw [sessionRange_eq_filter] at hmem
    have hord := OrderedMap.find?_eq_some_iff.mpr (List.mem_filter.mp hmem).1
    dsimp only at hack
    split_ifs at hack
    cases hack
    exact ⟨rfl, h.clId key ord hord, rfl⟩

end OrderEngine

end MarketMaker
