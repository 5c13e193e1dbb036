import MarketMaker.Bench.Rig
import MarketMaker.Duplex.Effects
import MarketMaker.Engine.Feed

/-!
# What the engine holds for a probe

The orders of a probe are numbered and at most one of them rests, far from the touch. `Holds` says
so of the engine: the highest number used and the order that rests. A book that stays away, or a
call of another session, keeps it. The commands that the engine accepts one after the other take it
from one standing to another (`Admits`), each drawing its ack and nothing else.
-/

namespace MarketMaker

namespace Harness

open OrderEngine

variable {cfg : EngineConfig} {s : ℕ} {e : OrderEngine} {used : ℕ} {live : Option ℕ}

/-- The instrument takes the orders of a probe, and lets one of them rest. -/
structure Suits (inst : Instrument) : Prop where
  valid : validateOrder inst SYMBOL (ascii "B") BID_PX QTY = none
  room : 1 ≤ inst.maxLiveOrders

/-- A resting order of a probe. -/
structure Resting (cfg : EngineConfig) (ord : Order) : Prop where
  side : ord.side = .bid
  px : toRawPx cfg.inst ord.px = BID_PX

/-- The engine holds orders up to number `used` for session `s`, and `live` is the one that
rests. -/
structure Holds (cfg : EngineConfig) (s : ℕ) (e : OrderEngine) (used : ℕ) (live : Option ℕ) :
    Prop where
  unused : ∀ n, used < n → e.orders.find? ⟨s, orderId n⟩ = none
  live_eq : ∀ c ord, e.orders.find? ⟨s, c⟩ = some ord → ord.st = .live →
    (∃ n, live = some n ∧ c = orderId n) ∧ Resting cfg ord
  stored : ∀ n, live = some n → ∃ ord, e.orders.find? ⟨s, orderId n⟩ = some ord ∧ ord.st = .live
  far : ¬crosses e.book .bid BID_PX = true

namespace Holds

theorem init (cfg : EngineConfig) (s : ℕ) : Holds cfg s {} 0 none where
  unused _ _ := rfl
  live_eq _ _ hord := by contradiction
  stored _ hn := by contradiction
  far := by decide

/-- The standing is read off the session's orders and the book. -/
theorem congr {e' : OrderEngine} (h : Holds cfg s e used live)
    (horders : ∀ c, e'.orders.find? ⟨s, c⟩ = e.orders.find? ⟨s, c⟩)
    (hfar : ¬crosses e'.book .bid BID_PX = true) : Holds cfg s e' used live where
  unused n hn := by
    rw [horders]
    exact h.unused n hn
  live_eq c ord hord hst := by
    rw [horders] at hord
    exact h.live_eq c ord hord hst
  stored n hn := by
    rw [horders]
    exact h.stored n hn
  far := hfar

theorem liveTotal_le_one (h : Holds cfg s e used live) : e.liveTotal s ≤ 1 := by
  refine OrderedMap.count_le_one ⟨s, orderId (live.getD 0)⟩ fun k ord hord hp => ?_
  obtain ⟨hs, hst⟩ : k.session = s ∧ ord.st = .live := by simpa using hp
  obtain ⟨session, c⟩ := k
  subst hs
  obtain ⟨⟨n, hn, hc⟩, -⟩ := h.live_eq c ord hord hst
  rw [hc, hn, Option.getD_some]

theorem liveTotal_eq_zero (h : Holds cfg s e used none) : e.liveTotal s = 0 := by
  refine OrderedMap.count_eq_zero_iff.mpr fun k ord hord => ?_
  obtain ⟨session, c⟩ := k
  simp only [decide_eq_false_iff_not]
  rintro ⟨rfl, hst⟩
  obtain ⟨⟨n, hn, -⟩, -⟩ := h.live_eq c ord hord hst
  cases hn

/-! ## Books and other sessions -/

theorem other (h : Holds cfg s e used live) (hinv : Inv cfg e) {c : Call}
    (hother : Duplex.isOther s c = true) :
    Holds cfg s (OrderEngine.step cfg e c).1 used live ∧
      reportsTo s (OrderEngine.step cfg e c).2 = [] := by
  obtain ⟨hstore, hreports⟩ := Duplex.other_effect hinv hother
  have hquiet : c.mdSeq? = none := by
    cases c with
    | onBook book => cases hother
    | onNew _ _ => rfl
    | onCancel _ _ => rfl
    | endSession _ => rfl
  have hbook := (book_step_of_not_book cfg e hquiet).1
  refine ⟨h.congr (fun c' => ?_) ?_, hreports⟩
  · rw [← Duplex.store_sideOf, hstore, Duplex.store_sideOf]
  · rw [hbook]
    exact h.far

/-- A book that stays away from the probe's price fills no order of the session. -/
theorem not_isFilled (h : Holds cfg s e used live) {book : Book}
    (hfar : ¬crosses book .bid BID_PX = true) {c : Bytes} {ord : Order}
    (hord : e.orders.find? ⟨s, c⟩ = some ord) : ¬isFilled cfg book ord = true := by
  intro hfill
  have hrests := (h.live_eq c ord hord (st_of_isFilled hfill)).2
  rw [isFilled, Bool.and_eq_true, hrests.side, hrests.px] at hfill
  exact hfar hfill.2

theorem book (h : Holds cfg s e used live) (hinv : Inv cfg e) {book : Book}
    (hfresh : e.isFresh book) (hfar : ¬crosses book .bid BID_PX = true) :
    Holds cfg s (OrderEngine.step cfg e (.onBook book)).1 used live ∧
      reportsTo s (OrderEngine.step cfg e (.onBook book)).2 = [] := by
  obtain ⟨hi, hout⟩ := onBook_of_fresh cfg hinv.indexed hfresh
  simp only [OrderEngine.step]
  constructor
  · refine h.congr (fun c => ?_) ?_
    · rw [hi.find?]
      cases hord : e.orders.find? ⟨s, c⟩ with
      | none => rfl
      | some ord => rw [Option.map_some, swept_of_not_isFilled (h.not_isFilled hfar hord)]
    · rw [hi.book]
      exact hfar
  · rw [hout, reportsTo, List.map_eq_nil_iff, List.filter_eq_nil_iff]
    intro r hr hs
    obtain ⟨key, ord, execId, hmem, rfl⟩ := mem_fillsFrom hr
    obtain ⟨hord, hfill⟩ := mem_filledBy.mp hmem
    have hkey : key = ⟨s, key.clId⟩ := by
      rw [← of_decide_eq_true hs]
    rw [hkey] at hord
    exact h.not_isFilled hfar hord hfill

end Holds

/-! ## Commands -/

/-- A new order of a probe. -/
structure IsProbeOrder (order : NewOrder) : Prop where
  symbol : order.symbol = SYMBOL
  side : order.side = ascii "B"
  px : order.px = BID_PX
  qty : order.qty = QTY

/-- Commands that the engine accepts one after the other, from one standing to another. -/
inductive Admits : ℕ → Option ℕ → List InMsg → ℕ → Option ℕ → Prop
  | nil {n : ℕ} {l : Option ℕ} : Admits n l [] n l
  | new {n n' : ℕ} {l' : Option ℕ} {order : NewOrder} {msgs : List InMsg}
      (hid : order.clId = orderId (n + 1)) (horder : IsProbeOrder order)
      (hrest : Admits (n + 1) (some (n + 1)) msgs n' l') :
      Admits n none (.newOrder order :: msgs) n' l'
  | cancel {n n' k : ℕ} {l' : Option ℕ} {cancel : CancelOrder} {msgs : List InMsg}
      (hid : cancel.clId = orderId k) (hrest : Admits n none msgs n' l') :
      Admits n (some k) (.cancelOrder cancel :: msgs) n' l'

theorem Admits.eq_of_nil {n n' : ℕ} {l l' : Option ℕ} (h : Admits n l [] n' l') :
    n = n' ∧ l = l' := by
  cases h
  exact ⟨rfl, rfl⟩

namespace Holds

/-- A new order finds the next number unused, room for one live order and the touch far away. -/
theorem onNew_eq (h : Holds cfg s e used none) (hinv : Inv cfg e) (hsuits : Suits cfg.inst)
    {order : NewOrder} (hid : order.clId = orderId (used + 1)) (horder : IsProbeOrder order) :
    onNew cfg e s order = recordAccept cfg e s order .bid := by
  have hdup : ¬e.isDuplicate s order.clId = true := by
    intro hdup
    obtain ⟨ord, hord⟩ := isDuplicate_iff.mp hdup
    rw [hid, h.unused (used + 1) (Nat.lt_succ_self used)] at hord
    cases hord
  have hvalid : validateOrder cfg.inst order.symbol order.side order.px order.qty = none := by
    rw [horder.symbol, horder.side, horder.px, horder.qty]
    exact hsuits.valid
  have hroom : ¬cfg.inst.maxLiveOrders.toNat ≤ e.liveCount s := by
    rw [liveCount_eq hinv.indexed, h.liveTotal_eq_zero]
    have := hsuits.room
    omega
  have hside : sideFromWire order.side = some .bid := by
    rw [horder.side]
    rfl
  have hfar : ¬(order.postOnly && crosses e.book .bid order.px) = true := by
    rw [horder.px, Bool.and_eq_true]
    exact fun hcross => h.far hcross.2
  rw [onNew, if_neg hdup]
  simp only [hvalid, if_neg hroom, hside, if_neg hfar]

theorem new (h : Holds cfg s e used none) (hinv : Inv cfg e) (hsuits : Suits cfg.inst)
    {order : NewOrder} (hid : order.clId = orderId (used + 1)) (horder : IsProbeOrder order) :
    Holds cfg s (OrderEngine.step cfg e (.onNew s order)).1 (used + 1) (some (used + 1)) ∧
      ∃ ack, reportsTo s (OrderEngine.step cfg e (.onNew s order)).2 = [ack] ∧
        Acks (.newOrder order) ack := by
  have hvalid : cfg.inst.tickSize ∣ BID_PX :=
    (validOrder_of_validateOrder hsuits.valid).tick
  simp only [OrderEngine.step, routeTo]
  rw [reportsTo_own, h.onNew_eq hinv hsuits hid horder]
  have hfind : ∀ c, (recordAccept cfg e s order .bid).1.orders.find? ⟨s, c⟩ =
      if c = orderId (used + 1) then some (acceptedOrder cfg e order .bid)
      else e.orders.find? ⟨s, c⟩ := by
    intro c
    rw [orders_recordAccept, OrderedMap.find?_insert]
    simp only [OrderKey.mk.injEq, true_and, hid]
  refine ⟨⟨fun n hn => ?_, fun c ord hord hst => ?_, fun n hn => ?_, ?_⟩, _, rfl, rfl⟩
  · rw [hfind, if_neg fun heq => by rw [orderId_inj] at heq; omega]
    exact h.unused n (by omega)
  · rw [hfind] at hord
    split_ifs at hord with hc
    · cases hord
      refine ⟨⟨used + 1, rfl, hc⟩, rfl, ?_⟩
      rw [acceptedOrder, toRawPx_toTicks (by rw [horder.px]; exact hvalid), horder.px]
    · -- no other order was live
      obtain ⟨⟨n, hn, -⟩, -⟩ := h.live_eq c ord hord hst
      cases hn
  · cases hn
    exact ⟨_, by rw [hfind, if_pos rfl], rfl⟩
  · exact h.far

theorem cancel {k : ℕ} (h : Holds cfg s e used (some k)) {cancel : CancelOrder}
    (hid : cancel.clId = orderId k) :
    Holds cfg s (OrderEngine.step cfg e (.onCancel s cancel)).1 used none ∧
      ∃ ack, reportsTo s (OrderEngine.step cfg e (.onCancel s cancel)).2 = [ack] ∧
        Acks (.cancelOrder cancel) ack := by
  obtain ⟨ord, hord, hst⟩ := h.stored k rfl
  have hcancel : onCancel e s cancel = recordCancel e s cancel.clId ord := by
    rw [onCancel, hid, hord]
    simp [hst]
  simp only [OrderEngine.step, routeTo]
  rw [reportsTo_own, hcancel]
  have hfind : ∀ c, (recordCancel e s cancel.clId ord).1.orders.find? ⟨s, c⟩ =
      if c = orderId k then (e.orders.find? ⟨s, c⟩).map fun o => { o with st := .cancelled }
      else e.orders.find? ⟨s, c⟩ := by
    intro c
    rw [orders_recordCancel, OrderedMap.find?_modify]
    simp only [OrderKey.mk.injEq, true_and, hid]
  have hbook : (recordCancel e s cancel.clId ord).1.book = e.book := by simp [recordCancel]
  refine ⟨⟨fun n hn => ?_, fun c ord' hord' hst' => ?_, fun n hn => (by contradiction), ?_⟩, _, rfl,
    rfl⟩
  · rw [hfind, h.unused n hn]
    split_ifs <;> rfl
  · rw [hfind] at hord'
    split_ifs at hord' with hc
    · obtain ⟨o, -, rfl⟩ := Option.map_eq_some_iff.mp hord'
      cases hst'
    · -- the only live order was the cancelled one
      obtain ⟨⟨n, hn, hcn⟩, -⟩ := h.live_eq c ord' hord' hst'
      cases hn
      exact absurd hcn hc
  · rw [hbook]
    exact h.far

end Holds

end Harness

end MarketMaker
