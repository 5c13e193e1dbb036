import MarketMaker.Native.Overflow
import Mathlib.Algebra.Order.BigOperators.Group.List
import Mathlib.Tactic.Linarith
import Mathlib.Tactic.Ring

/-!
# The account of the native market maker

`position` and `realized_pnl` against the fills of the orders that were emitted. `on_fill` looks for
the id of a fill in the two slots for active orders only, where 0 stands for an empty slot
(`matched`), so the account is right as long as that finds the side of the order the fill names
(`Attributed`) and no sum leaves an `int64` (`CallFits`), and goes wrong at the first call where one
of these fails. -/

namespace MarketMaker

namespace Native

open NativeMarketMaker

/-- The position that the fills of the emitted orders add up to. -/
def Trace.position (t : Trace) : ℤ :=
  (t.executions.map fun e => sign (some e.order.side) * e.qty).sum

/-- The profit that they add up to. -/
def Trace.realizedPnl (t : Trace) : ℤ :=
  (t.executions.map fun e => -(sign (some e.order.side) * (e.px * e.qty))).sum

/-- The account is the one of the fills. -/
structure Accounted (w : World) : Prop where
  position : w.self.position = w.trace.position
  realizedPnl : w.self.realizedPnl = w.trace.realizedPnl

/-- The side of the order that an id names. -/
def Trace.sideOf (t : Trace) (clId : UInt64) : Option Side := (t.find clId).map Placed.side

/-- A fill is booked on the side of the order it names, and on none if it names none. -/
def Attributed (w : World) (fill : ShmOrderFill) : Prop :=
  fill.fillQty.toInt = 0 ∨ matched w.self fill.clId = w.trace.sideOf fill.clId

/-- What the source promises of a run: no call overflows, the account is the one of the fills
wherever the run comes, and a fill that names no emitted order does not change it. -/
structure KeepsAccount (cfg : StrategyConfig) (calls : List Call) : Prop where
  defined : ∀ w call, Meets cfg calls w call → Native.step cfg w.self call ≠ none
  accounted : ∀ w, Visits cfg calls w → Accounted w
  foreign : ∀ w fill w', Takes cfg calls w (.fill fill) w' → w.trace.find fill.clId = none →
    w'.self.position = w.self.position ∧ w'.self.realizedPnl = w.self.realizedPnl

variable {cfg : StrategyConfig} {calls : List Call} {w w' : World}

/-- What a fill does to the trace. -/
theorem account_filled (t : Trace) (fill : ShmOrderFill) :
    (t.filled fill).position =
      t.position + sign (t.sideOf fill.clId) * fill.fillQty.toInt ∧
    (t.filled fill).realizedPnl = t.realizedPnl -
      sign (t.sideOf fill.clId) * (fill.fillPx.toInt * fill.fillQty.toInt) := by
  rw [Trace.filled, Trace.sideOf]
  cases t.find fill.clId with
  | none => simp [sign]
  | some order =>
    simp only [Trace.position, Trace.realizedPnl, List.map_cons, List.sum_cons, Option.map_some]
    exact ⟨by ring, by ring⟩

/-- A fill keeps the account right exactly when it is booked on the side of the order it names. -/
theorem accounted_fill_iff {fill : ShmOrderFill} (h : Accounted w)
    (hstep : w.step cfg (.fill fill) = some w') : Accounted w' ↔ Attributed w fill := by
  obtain ⟨hposition, hpnl⟩ := account_filled w.trace fill
  have hsign : ∀ a b : Option Side, sign a = sign b ↔ a = b := by
    rintro (_ | _ | _) (_ | _ | _) <;> decide
  rw [World.step_fill hstep, Attributed, ← hsign]
  constructor
  · intro haccount
    have hposition' := haccount.position
    dsimp only at hposition'
    rw [hposition, h.position] at hposition'
    have hzero : (sign (matched w.self fill.clId) - sign (w.trace.sideOf fill.clId)) *
        fill.fillQty.toInt = 0 := by linarith
    rcases mul_eq_zero.mp hzero with hsides | hqty
    · exact Or.inr (sub_eq_zero.mp hsides)
    · exact Or.inl hqty
  · rintro (hqty | hsides)
    · refine ⟨?_, ?_⟩
      · dsimp only
        rw [hposition, h.position, hqty, mul_zero, mul_zero]
      · dsimp only
        rw [hpnl, h.realizedPnl, hqty, mul_zero, mul_zero, mul_zero]
    · refine ⟨?_, ?_⟩
      · dsimp only
        rw [hposition, h.position, hsides]
      · dsimp only
        rw [hpnl, h.realizedPnl, hsides]

/-- A call that books nothing leaves the account in step with the trace. -/
theorem Accounted.of_sameAccount (h : Accounted w) (hsame : SameAccount w w') : Accounted w' where
  position := by
    rw [hsame.position, h.position, Trace.position, Trace.position, hsame.executions]
  realizedPnl := by
    rw [hsame.realizedPnl, h.realizedPnl, Trace.realizedPnl, Trace.realizedPnl, hsame.executions]

/-- Nothing has been filled yet, and the account is empty. -/
theorem accounted_init : Accounted {} := ⟨rfl, rfl⟩

/-- The account stays the one of the fills along a run exactly when the arithmetic of every call of
it stays in range and every fill of it is booked on the side of the order it names. -/
theorem run_keepsAccount_iff (cfg : StrategyConfig) (calls : List Call) :
    KeepsAccount cfg calls ↔
      ∀ w call, Meets cfg calls w call →
        CallFits cfg w.self call ∧ ∀ fill, call = .fill fill → Attributed w fill := by
  constructor
  · intro h w call hmeets
    have hdefined := h.defined w call hmeets
    refine ⟨step_ne_none_iff.mp hdefined, ?_⟩
    rintro fill rfl
    obtain ⟨w', htakes⟩ := hmeets.takes hdefined
    obtain ⟨-, -, -, hstep⟩ := id htakes
    exact (accounted_fill_iff (h.accounted w htakes.visits) hstep).mp
      (h.accounted w' htakes.visits_next)
  · intro h
    have hall : ∀ w, Visits cfg calls w → Accounted w := by
      refine visits_induct accounted_init fun w call w' htakes hw => ?_
      obtain ⟨-, -, -, hstep⟩ := id htakes
      by_cases hcall : ∃ fill, call = .fill fill
      · obtain ⟨fill, rfl⟩ := hcall
        exact (accounted_fill_iff hw hstep).mpr ((h w _ htakes.meets).2 fill rfl)
      · exact hw.of_sameAccount (sameAccount_step (not_exists.mp hcall) hstep)
    refine ⟨fun w call hmeets => step_ne_none_iff.mpr (h w call hmeets).1, hall,
      fun w fill w' htakes hforeign => ?_⟩
    -- the trace does not change, and the account is right before and after
    obtain ⟨-, -, -, hstep⟩ := id htakes
    have hbefore := hall w htakes.visits
    have hafter := hall w' htakes.visits_next
    have htrace : w'.trace = w.trace := by
      rw [World.step_fill hstep]
      dsimp only
      rw [Trace.filled, hforeign]
    rw [hafter.position, hafter.realizedPnl, htrace, hbefore.position, hbefore.realizedPnl]
    exact ⟨rfl, rfl⟩

/-- A bid of 10 that fills by 4 and then by 6: the first fill empties its slot, and the second finds
no order. -/
theorem run_keepsAccount_partial :
    ¬KeepsAccount {}
      [.tob { mdSeq := 1, bidPx := 500000, bidQty := 10, askPx := 500020, askQty := 10 } 1,
        .fill { clId := 1, fillPx := 500000, fillQty := 4 },
        .fill { clId := 1, fillPx := 500000, fillQty := 6 }] := by
  intro h
  have haccount := h.accounted _ ⟨_, List.prefix_rfl, rfl⟩
  exact absurd haccount.position (by decide)

/-! ## The limit -/

/-- A fill names the active order of a side. -/
def NamesActive (s : NativeMarketMaker) (fill : ShmOrderFill) : Prop :=
  fill.clId ≠ 0 ∧ ∃ side, (s.active side).clId = fill.clId

/-- The fills of a run name active orders, and those of an order total at most its quantity. -/
structure LegalFills (cfg : StrategyConfig) (calls : List Call) : Prop where
  active : ∀ w fill w', Takes cfg calls w (.fill fill) w' → NamesActive w.self fill
  total : ∀ w, Visits cfg calls w → ∀ o ∈ w.trace.orders, w.trace.filledQty o.clId ≤ o.qty

/-- A whole fill of an order of a side stays within the limit. -/
def Room (cfg : StrategyConfig) (position : ℤ) : Side → Prop
  | .bid => position + cfg.orderSize.toInt ≤ cfg.maxPosition.toInt
  | .ask => -cfg.maxPosition.toInt ≤ position - cfg.orderSize.toInt

/-- A side that may quote has room for a whole order, and no fill is negative. -/
def Restrained (cfg : StrategyConfig) (position : ℤ) : Call → Prop
  | .tob tob _ => ∀ side target, MayQuote cfg position tob side target → Room cfg position side
  | .fill fill => 0 ≤ fill.fillQty.toInt
  | _ => True

/-- Orders of one lot always have room. -/
theorem room_of_one {position : ℤ} {tob : ShmTopOfBook} {side : Side} {target : ℤ}
    (hsize : cfg.orderSize = 1) (h : MayQuote cfg position tob side target) :
    Room cfg position side := by
  obtain ⟨-, prices, -, h⟩ := h
  have hone : cfg.orderSize.toInt = 1 := by rw [hsize]; rfl
  cases side with
  | bid =>
    obtain ⟨-, hlimit, -⟩ := h
    rw [Room, hone]
    omega
  | ask =>
    obtain ⟨-, hlimit, -⟩ := h
    rw [Room, hone]
    omega

/-- What keeps the position within its limit: every active order has room for a whole fill. -/
structure Bounded (cfg : StrategyConfig) (w : World) : Prop where
  low : -cfg.maxPosition.toInt ≤ w.self.position
  high : w.self.position ≤ cfg.maxPosition.toInt
  sizes : ∀ o ∈ w.trace.orders, o.qty = cfg.orderSize.toInt
  executed : ∀ e ∈ w.trace.executions, 0 ≤ e.qty
  known : ∀ side, (w.self.active side).clId ≠ 0 →
    ∃ o ∈ w.trace.orders, o.clId = (w.self.active side).clId
  room : ∀ side, (w.self.active side).clId ≠ 0 → Room cfg w.self.position side

/-- It is kept as long as slots are only emptied. -/
theorem Bounded.of_emptied (h : Bounded cfg w) (hsame : SameAccount w w')
    (horders : w'.trace.orders = w.trace.orders)
    (hactive : ∀ side, (w'.self.active side).clId ≠ 0 →
      (w'.self.active side).clId = (w.self.active side).clId) : Bounded cfg w' := by
  refine ⟨?_, ?_, ?_, ?_, fun side hside => ?_, fun side hside => ?_⟩
  · rw [hsame.position]
    exact h.low
  · rw [hsame.position]
    exact h.high
  · rw [horders]
    exact h.sizes
  · rw [hsame.executions]
    exact h.executed
  · rw [horders, hactive side hside]
    exact h.known side (hactive side hside ▸ hside)
  · rw [hsame.position]
    exact h.room side (hactive side hside ▸ hside)

/-- Pulling a side exposes nothing more. -/
theorem Bounded.pulled (h : Bounded cfg w) (side : Side) : Bounded cfg (w.pulled side) := by
  refine h.of_emptied (sameAccount_pulled w side) rfl fun side' hside => ?_
  rw [clId_pulled] at hside ⊢
  split_ifs at hside ⊢
  · exact absurd rfl hside
  · rfl

/-- An order that is posted where a whole fill of it stays within the limit keeps the bound. -/
theorem Bounded.posted (h : Bounded cfg w) {side : Side} (hroom : Room cfg w.self.position side)
    (target : ℤ) (mdSeq : UInt64) : Bounded cfg (w.posted cfg side target mdSeq) := by
  have horders : (w.posted cfg side target mdSeq).trace.orders =
      ⟨w.self.nextClId, side, cfg.orderSize.toInt⟩ :: w.trace.orders := rfl
  refine ⟨h.low, h.high, ?_, h.executed, fun side' hside => ?_, fun side' hside => ?_⟩
  · rw [horders, List.forall_mem_cons]
    exact ⟨rfl, h.sizes⟩
  · rw [active_posted] at hside ⊢
    rw [horders]
    split_ifs at hside ⊢
    · exact ⟨_, List.mem_cons_self, rfl⟩
    · obtain ⟨o, ho, hid⟩ := h.known side' hside
      exact ⟨o, List.mem_cons_of_mem _ ho, hid⟩
  · rw [active_posted] at hside
    split_ifs at hside with heq
    · rw [heq]
      exact hroom
    · exact h.room side' hside

/-- Fills that are not negative add up to no negative quantity. -/
theorem filledQty_nonneg {t : Trace} (h : ∀ e ∈ t.executions, 0 ≤ e.qty) (clId : UInt64) :
    0 ≤ t.filledQty clId := by
  refine List.sum_nonneg fun q hq => ?_
  obtain ⟨e, he, rfl⟩ := List.mem_map.mp hq
  exact h e (List.mem_filter.mp he).1

/-- A fill of an active order stays within what is left of it. -/
theorem Bounded.filled (h : Bounded cfg w) {fill : ShmOrderFill} (hactive : NamesActive w.self fill)
    (hqty : 0 ≤ fill.fillQty.toInt) (hstep : w.step cfg (.fill fill) = some w')
    (htotal : ∀ o ∈ w'.trace.orders, w'.trace.filledQty o.clId ≤ o.qty) : Bounded cfg w' := by
  obtain ⟨hne, side₀, hside₀⟩ := hactive
  obtain ⟨side, hmatched⟩ := Option.ne_none_iff_exists'.mp (matched_ne_none hside₀)
  have hside := clId_of_matched hmatched
  have hroom := h.room side (by rw [hside]; exact hne)
  obtain ⟨o, ho, hid⟩ := h.known side (by rw [hside]; exact hne)
  rw [hside] at hid
  obtain ⟨order, -, hexecutions⟩ := Trace.executions_filled ho hid
  rw [World.step_fill hstep, hmatched] at htotal ⊢
  -- the fill is no more than the order, whose earlier fills are not negative
  have hle : fill.fillQty.toInt ≤ cfg.orderSize.toInt := by
    have hbound := htotal o (by simpa using ho)
    have hbefore := filledQty_nonneg h.executed fill.clId
    rw [h.sizes o ho, hid] at hbound
    dsimp only at hbound
    rw [← hid, Trace.filledQty_filled ho, if_pos hid, hid] at hbound
    omega
  have hslots : ∀ side', ((emptied w.self (some side)).active side').clId ≠ 0 →
      side' ≠ side ∧ (w.self.active side').clId ≠ 0 := by
    intro side' hside'
    rw [clId_emptied] at hside'
    split_ifs at hside' with heq
    · exact absurd rfl hside'
    · exact ⟨fun hsame => heq (hsame ▸ rfl), hside'⟩
  have hknown : ∀ side', ((emptied w.self (some side)).active side').clId ≠ 0 →
      ∃ o ∈ (w.trace.filled fill).orders,
        o.clId = ((emptied w.self (some side)).active side').clId := by
    intro side' hside'
    obtain ⟨hother, hbefore⟩ := hslots side' hside'
    rw [clId_emptied, if_neg (fun heq => hother (Option.some.inj heq).symm), Trace.orders_filled]
    exact h.known side' hbefore
  have hexecuted : ∀ e ∈ (w.trace.filled fill).executions, 0 ≤ e.qty := by
    rw [hexecutions, List.forall_mem_cons]
    exact ⟨hqty, h.executed⟩
  have hsizes : ∀ o ∈ (w.trace.filled fill).orders, o.qty = cfg.orderSize.toInt := by
    rw [Trace.orders_filled]
    exact h.sizes
  have hlow := h.low
  have hhigh := h.high
  cases side with
  | bid =>
    rw [Room] at hroom
    refine ⟨?_, ?_, hsizes, hexecuted, hknown, fun side' hside' => ?_⟩
    · simp only [sign]
      omega
    · simp only [sign]
      omega
    · obtain ⟨hother, hbefore⟩ := hslots side' hside'
      have hroom' := h.room side' hbefore
      cases side' with
      | bid => exact absurd rfl hother
      | ask =>
        simp only [Room, sign] at hroom' ⊢
        omega
  | ask =>
    rw [Room] at hroom
    refine ⟨?_, ?_, hsizes, hexecuted, hknown, fun side' hside' => ?_⟩
    · simp only [sign]
      omega
    · simp only [sign]
      omega
    · obtain ⟨hother, hbefore⟩ := hslots side' hside'
      have hroom' := h.room side' hbefore
      cases side' with
      | bid =>
        simp only [Room, sign] at hroom' ⊢
        omega
      | ask => exact absurd rfl hother

/-- A reject exposes less, if anything. -/
theorem Bounded.rejected (h : Bounded cfg w) {reject : ShmOrderReject}
    (hstep : w.step cfg (.reject reject) = some w') : Bounded cfg w' := by
  have hsame := sameAccount_reject hstep
  rw [World.step_reject] at hstep
  cases hstep
  refine h.of_emptied hsame (Trace.orders_refused _ _) fun side hside => ?_
  change ((emptied w.self _).active side).clId ≠ 0 at hside
  change ((emptied w.self _).active side).clId = _
  rw [clId_emptied] at hside ⊢
  split_ifs at hside ⊢
  · exact absurd rfl hside
  · rfl

/-- As long as an order is posted only where a whole fill of it stays within the limit, and no fill
is negative, the position stays within the limit, in every state of the run. A run that overflows
has no state from there on. -/
theorem run_withinLimit (cfg : StrategyConfig) (calls : List Call)
    (hmax : 0 < cfg.maxPosition.toInt) (hlegal : LegalFills cfg calls)
    (hrestrained : ∀ w call w', Takes cfg calls w call w' → Restrained cfg w.self.position call) :
    ∀ w, Visits cfg calls w → |w.self.position| ≤ cfg.maxPosition.toInt := by
  have hbounded : ∀ w, Visits cfg calls w → Bounded cfg w := by
    refine visits_induct ?_ fun w call w' htakes hw => ?_
    · exact ⟨by simpa using hmax.le, hmax.le, fun o ho => (by contradiction),
        fun e he => (by contradiction),
        fun side hside => absurd rfl hside, fun side hside => absurd rfl hside⟩
    · have hcall := hrestrained w call w' htakes
      obtain ⟨pre, hpre, hrun, hstep⟩ := id htakes
      cases call with
      | tob tob nowNs =>
        refine World.tob_induct (fun h => ?_) (fun v side hv => hv.pulled side)
          (fun v side target hsame hquote _ hv => ?_) hw hstep
        · exact h.of_emptied ⟨rfl, rfl, rfl⟩ rfl fun side _ => rfl
        · refine hv.posted ?_ target tob.mdSeq
          rw [hsame.position]
          exact hcall side target hquote
      | ack ack =>
        cases hstep
        exact hw.of_emptied ⟨rfl, rfl, rfl⟩ rfl fun side _ => rfl
      | fill fill =>
        exact hw.filled (hlegal.active w fill w' htakes) hcall hstep
          (hlegal.total w' htakes.visits_next)
      | reject reject => exact hw.rejected hstep
      | cancelAll =>
        cases hstep
        exact (hw.pulled .bid).pulled .ask
  exact fun w hw => abs_le.mpr ⟨(hbounded w hw).low, (hbounded w hw).high⟩

/-- Orders of 10, with a limit. -/
def lots (limit : Int64) : StrategyConfig := { orderSize := 10, maxPosition := limit }

/-- A book, and a whole fill of the bid. -/
def wholeFill : List Call :=
  [.tob { mdSeq := 1, bidPx := 500000, bidQty := 10, askPx := 500020, askQty := 10 } 1,
    .fill { clId := 1, fillPx := 500000, fillQty := 10 }]

theorem legalFills_wholeFill {limit : Int64} (h : limit = 5 ∨ limit = 10) :
    LegalFills (lots limit) wholeFill := by
  constructor
  · intro w fill w' htakes
    obtain ⟨n, hn, hrun, hcall, -⟩ := htakes.exists_take
    have hn : n = 0 ∨ n = 1 := by
      change n < 2 at hn
      omega
    rcases hn with rfl | rfl
    · cases hcall
    · cases hcall
      rcases h with rfl | rfl
      · cases hrun
        exact ⟨by decide, .bid, by decide⟩
      · cases hrun
        exact ⟨by decide, .bid, by decide⟩
  · intro w hvisits
    obtain ⟨n, hn, hrun⟩ := hvisits.exists_take
    have hn : n = 0 ∨ n = 1 ∨ n = 2 := by
      change n ≤ 2 at hn
      omega
    rcases hn with rfl | rfl | rfl
    · cases hrun
      exact fun o ho => by contradiction
    · rcases h with rfl | rfl <;> (cases hrun; decide)
    · rcases h with rfl | rfl <;> (cases hrun; decide)

/-- An order of 10 with a limit of 5 is posted at position 0, and a whole fill passes the limit. -/
theorem run_withinLimit_small :
    ¬∀ (cfg : StrategyConfig) (calls : List Call), 0 < cfg.orderSize.toInt →
      0 < cfg.maxPosition.toInt → LegalFills cfg calls →
      ∀ w, Visits cfg calls w → |w.self.position| ≤ cfg.maxPosition.toInt := by
  intro h
  have hbound := h (lots 5) wholeFill (by decide) (by decide) (legalFills_wholeFill (Or.inl rfl)) _
    ⟨_, List.prefix_rfl, rfl⟩
  exact absurd hbound (by decide)

/-- With a limit of 10 the same run stays within it. -/
theorem run_withinLimit_lots : ∃ w, run (lots 10) wholeFill = some w ∧
    |w.self.position| ≤ (lots 10).maxPosition.toInt := by
  refine ⟨_, rfl, run_withinLimit (lots 10) wholeFill (by decide)
    (legalFills_wholeFill (Or.inr rfl)) (fun w call w' htakes => ?_) _ ⟨_, List.prefix_rfl, rfl⟩⟩
  obtain ⟨n, hn, hrun, hcall, -⟩ := htakes.exists_take
  have hn : n = 0 ∨ n = 1 := by
    change n < 2 at hn
    omega
  rcases hn with rfl | rfl
  · cases hrun
    cases hcall
    intro side target _
    cases side <;> simp only [Room] <;> decide
  · cases hcall
    exact (by decide : (0 : ℤ) ≤ (10 : Int64).toInt)

end Native

end MarketMaker
