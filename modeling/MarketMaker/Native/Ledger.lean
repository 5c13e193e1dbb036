import MarketMaker.Native.Basic
import Mathlib.Data.List.Induction

/-!
# The orders of the native market maker

An observer beside the strategy, which sees only the calls and the decisions: the orders that were
emitted and what became of each (`Trace`). A `World` is the strategy with its observer. A run may
end in an overflow, which is undefined behaviour, and then has no outcome: `Visits` and `Takes`
speak of what comes before it, `Meets` of the call that overflows as well. -/

namespace MarketMaker

namespace Native

open NativeMarketMaker

/-- An order that was emitted. -/
structure Placed where
  clId : UInt64
  side : Side
  qty : ℤ
deriving DecidableEq

/-- A fill of an order that had been emitted before. -/
structure Execution where
  order : Placed
  px : ℤ
  qty : ℤ
deriving DecidableEq

/-- What the observer has seen, the last first. -/
structure Trace where
  orders : List Placed := []
  executions : List Execution := []
  cancelled : List UInt64 := []
  rejected : List UInt64 := []
deriving DecidableEq

namespace Trace

/-- The order that an id names. -/
def find (t : Trace) (clId : UInt64) : Option Placed := t.orders.find? fun o => o.clId = clId

/-- Note what was decided for a side: its cancel first. -/
def decided (t : Trace) (side : Side) (d : SideDecision) : Trace :=
  { t with
    orders := (d.order.map fun o => ⟨o.clId, side, o.qty.toInt⟩).toList ++ t.orders
    cancelled := (d.cancel.map fun c => c.clId).toList ++ t.cancelled }

/-- Note a fill, if it names an order. -/
def filled (t : Trace) (fill : ShmOrderFill) : Trace :=
  match t.find fill.clId with
  | some order =>
    { t with executions := ⟨order, fill.fillPx.toInt, fill.fillQty.toInt⟩ :: t.executions }
  | none => t

/-- An execution report places no order. -/
@[simp]
theorem orders_filled (t : Trace) (fill : ShmOrderFill) : (t.filled fill).orders = t.orders := by
  rw [filled]
  cases t.find fill.clId <;> rfl

/-- It cancels none. -/
@[simp]
theorem cancelled_filled (t : Trace) (fill : ShmOrderFill) :
    (t.filled fill).cancelled = t.cancelled := by
  rw [filled]
  cases t.find fill.clId <;> rfl

/-- It rejects none. -/
@[simp]
theorem rejected_filled (t : Trace) (fill : ShmOrderFill) :
    (t.filled fill).rejected = t.rejected := by
  rw [filled]
  cases t.find fill.clId <;> rfl

/-- Note a reject, if it names an order. -/
def refused (t : Trace) (clId : UInt64) : Trace :=
  match t.find clId with
  | some _ => { t with rejected := clId :: t.rejected }
  | none => t

/-- A reject places no order. -/
@[simp]
theorem orders_refused (t : Trace) (clId : UInt64) : (t.refused clId).orders = t.orders := by
  rw [refused]
  cases t.find clId <;> rfl

/-- It executes none. -/
@[simp]
theorem executions_refused (t : Trace) (clId : UInt64) :
    (t.refused clId).executions = t.executions := by
  rw [refused]
  cases t.find clId <;> rfl

/-- It cancels none. -/
@[simp]
theorem cancelled_refused (t : Trace) (clId : UInt64) :
    (t.refused clId).cancelled = t.cancelled := by
  rw [refused]
  cases t.find clId <;> rfl

/-- What was rejected stays so. -/
theorem rejected_subset_refused (t : Trace) (clId : UInt64) :
    ∀ id ∈ t.rejected, id ∈ (t.refused clId).rejected := by
  intro id hid
  rw [refused]
  cases t.find clId with
  | none => exact hid
  | some order => exact List.mem_cons_of_mem clId hid

/-- An order that was emitted is found by its id. -/
theorem find_ne_none {t : Trace} {o : Placed} {clId : UInt64} (ho : o ∈ t.orders)
    (hid : o.clId = clId) : ∃ order, t.find clId = some order ∧ order.clId = clId := by
  cases hfind : t.find clId with
  | none => exact absurd hid (of_decide_eq_false (by simpa using List.find?_eq_none.mp hfind o ho))
  | some order => exact ⟨order, rfl, of_decide_eq_true (List.find?_some hfind :)⟩

/-- The reject of an order that was emitted is recorded. -/
theorem mem_rejected_refused {t : Trace} {o : Placed} {clId : UInt64} (ho : o ∈ t.orders)
    (hid : o.clId = clId) : clId ∈ (t.refused clId).rejected := by
  obtain ⟨order, hfind, -⟩ := find_ne_none ho hid
  rw [refused, hfind]
  exact List.mem_cons_self

/-- A fill of an emitted order is noted. -/
theorem executions_filled {t : Trace} {o : Placed} {fill : ShmOrderFill} (ho : o ∈ t.orders)
    (hid : o.clId = fill.clId) :
    ∃ order, order.clId = fill.clId ∧ (t.filled fill).executions =
      ⟨order, fill.fillPx.toInt, fill.fillQty.toInt⟩ :: t.executions := by
  obtain ⟨order, hfind, horder⟩ := find_ne_none ho hid
  exact ⟨order, horder, by rw [filled, hfind]⟩

/-- Note a call and what it decided. -/
def record (t : Trace) (call : Call) (d : StrategyDecision) : Trace :=
  let t := (t.decided .bid d.bid).decided .ask d.ask
  match call with
  | .fill fill => t.filled fill
  | .reject reject => t.refused reject.clId
  | _ => t

/-- The filled quantity of an order. -/
def filledQty (t : Trace) (clId : UInt64) : ℤ :=
  ((t.executions.filter fun e => e.order.clId = clId).map fun e => e.qty).sum

/-- A fill of an order that was emitted adds its quantity to that order. -/
theorem filledQty_filled {t : Trace} {o : Placed} {fill : ShmOrderFill} (ho : o ∈ t.orders) :
    (t.filled fill).filledQty o.clId =
      (if o.clId = fill.clId then fill.fillQty.toInt else 0) + t.filledQty o.clId := by
  by_cases hid : o.clId = fill.clId
  · obtain ⟨order, horder, hexecutions⟩ := executions_filled ho hid
    rw [if_pos hid, filledQty, hexecutions,
      List.filter_cons_of_pos (by simpa using horder.trans hid.symm)]
    rfl
  · rw [if_neg hid, zero_add, filled]
    cases hfind : t.find fill.clId with
    | none => rfl
    | some order =>
      have horder : order.clId = fill.clId := of_decide_eq_true (List.find?_some hfind :)
      rw [filledQty, List.filter_cons_of_neg (by simpa [horder] using Ne.symm hid)]
      rfl

end Trace

/-- The strategy and its observer. -/
structure World where
  self : NativeMarketMaker := {}
  trace : Trace := {}

section Config

variable (cfg : StrategyConfig)

/-- A call, observed. -/
def World.step (w : World) (call : Call) : Option World :=
  (Native.step cfg w.self call).map fun out => ⟨out.1, w.trace.record call out.2⟩

/-- A sequence of calls. -/
def run (calls : List Call) : Option World := calls.foldlM (World.step cfg) {}

/-- A run comes through a state: a run that overflows has no state from there on, so that this is
about its calls before the overflow. -/
def Visits (calls : List Call) (w : World) : Prop := ∃ pre, pre <+: calls ∧ run cfg pre = some w

/-- A run makes a call in a state, whether or not the call overflows there. -/
def Meets (calls : List Call) (w : World) (call : Call) : Prop :=
  ∃ pre, pre ++ [call] <+: calls ∧ run cfg pre = some w

/-- A run takes a call from one state to the next: the call does not overflow. -/
def Takes (calls : List Call) (w : World) (call : Call) (w' : World) : Prop :=
  ∃ pre, pre ++ [call] <+: calls ∧ run cfg pre = some w ∧ w.step cfg call = some w'

end Config

variable {cfg : StrategyConfig} {calls : List Call} {w w' : World} {call : Call}

/-- A run is taken call by call. -/
theorem run_concat (calls : List Call) (call : Call) :
    run cfg (calls ++ [call]) = (run cfg calls).bind fun w => w.step cfg call := by
  rw [run, List.foldlM_append]
  cases h : run cfg calls with
  | none =>
    rw [run] at h
    rw [h]
    rfl
  | some w =>
    rw [run] at h
    rw [h]
    exact bind_pure (w.step cfg call)

/-- A call that is taken is made. -/
theorem Takes.meets (h : Takes cfg calls w call w') : Meets cfg calls w call := by
  obtain ⟨pre, hpre, hrun, -⟩ := h
  exact ⟨pre, hpre, hrun⟩

/-- A call that is made and does not overflow is taken. -/
theorem Meets.takes (h : Meets cfg calls w call) (hdefined : Native.step cfg w.self call ≠ none) :
    ∃ w', Takes cfg calls w call w' := by
  obtain ⟨pre, hpre, hrun⟩ := h
  obtain ⟨out, hout⟩ := Option.ne_none_iff_exists'.mp hdefined
  refine ⟨⟨out.1, w.trace.record call out.2⟩, pre, hpre, hrun, ?_⟩
  rw [World.step, hout]
  rfl

/-- A call is taken in a state of the run. -/
theorem Takes.visits (h : Takes cfg calls w call w') : Visits cfg calls w := by
  obtain ⟨pre, hpre, hrun, -⟩ := h
  exact ⟨pre, (List.prefix_append pre [call]).trans hpre, hrun⟩

/-- It leads to one. -/
theorem Takes.visits_next (h : Takes cfg calls w call w') : Visits cfg calls w' := by
  obtain ⟨pre, hpre, hrun, hstep⟩ := h
  refine ⟨pre ++ [call], hpre, ?_⟩
  rw [run_concat, hrun]
  exact hstep

/-- A state of a run is reached after some of its calls. -/
theorem Visits.exists_take (h : Visits cfg calls w) :
    ∃ n ≤ calls.length, run cfg (calls.take n) = some w := by
  obtain ⟨pre, hpre, hrun⟩ := h
  exact ⟨pre.length, hpre.length_le, by rwa [← List.prefix_iff_eq_take.mp hpre]⟩

/-- A call of a run is taken after those before it. -/
theorem Takes.exists_take (h : Takes cfg calls w call w') :
    ∃ n < calls.length, run cfg (calls.take n) = some w ∧ calls[n]? = some call ∧
      w.step cfg call = some w' := by
  obtain ⟨pre, hpre, hrun, hstep⟩ := h
  obtain ⟨rest, rfl⟩ := hpre
  refine ⟨pre.length, by simp, ?_, by simp, hstep⟩
  rwa [List.append_assoc, List.take_left]

/-- What holds at the start and is kept by every call of a run holds wherever the run comes. -/
theorem visits_induct {P : World → Prop} (init : P {})
    (keep : ∀ w call w', Takes cfg calls w call w' → P w → P w') :
    ∀ w, Visits cfg calls w → P w := by
  rintro w ⟨pre, hpre, hrun⟩
  induction pre using List.reverseRecOn generalizing w with
  | nil =>
    cases hrun
    exact init
  | append_singleton pre call ih =>
    rw [run_concat, Option.bind_eq_some_iff] at hrun
    obtain ⟨v, hv, hstep⟩ := hrun
    have hprefix : pre <+: calls := (List.prefix_append pre [call]).trans hpre
    exact keep v call w ⟨pre, hpre, hv, hstep⟩ (ih v hprefix hv)

/-! ## What a call does -/

/-- The strategy pulls a side. -/
def World.pulled (w : World) (side : Side) : World :=
  ⟨(w.self.pull side).1, w.trace.decided side { cancel := (w.self.pull side).2 }⟩

/-- The strategy posts an order. -/
def World.posted (w : World) (cfg : StrategyConfig) (side : Side) (target : ℤ) (mdSeq : UInt64) :
    World :=
  ⟨(w.self.post cfg side target mdSeq).1,
    w.trace.decided side { order := some (w.self.post cfg side target mdSeq).2 }⟩

/-- The strategy manages a side. -/
def World.managed (w : World) (cfg : StrategyConfig) (side : Side) (allowed : Bool) (target : ℤ)
    (mdSeq : UInt64) : World :=
  ⟨(w.self.manage cfg side allowed target mdSeq).1,
    w.trace.decided side (w.self.manage cfg side allowed target mdSeq).2⟩

/-- The strategy notes a book. -/
def World.noted (w : World) (tob : ShmTopOfBook) (nowNs : Int64) : World :=
  ⟨w.self.noted tob nowNs, w.trace⟩

/-- To manage a side is to leave it at the target, to pull it, or to post an order in its slot when
that is empty, possibly after a pull. -/
theorem World.managed_cases (w : World) (cfg : StrategyConfig) (side : Side) (allowed : Bool)
    (target : ℤ) (mdSeq : UInt64) :
    (w.self.active side).px = target ∧ w.managed cfg side allowed target mdSeq = w ∨
    w.managed cfg side allowed target mdSeq = w.pulled side ∨
    ∃ v, (v = w ∨ v = w.pulled side) ∧ allowed = true ∧ (v.self.active side).clId = 0 ∧
      w.managed cfg side allowed target mdSeq = v.posted cfg side target mdSeq := by
  cases allowed with
  | false => exact Or.inr (Or.inl rfl)
  | true =>
    by_cases hpx : (w.self.active side).px ≠ target
    · by_cases hempty : ((w.self.pull side).1.active side).clId = 0
      · refine Or.inr (Or.inr ⟨w.pulled side, Or.inr rfl, rfl, hempty, ?_⟩)
        simp only [managed, NativeMarketMaker.manage, if_pos hpx, if_pos hempty, if_true]
        rfl
      · refine Or.inr (Or.inl ?_)
        simp only [managed, NativeMarketMaker.manage, if_pos hpx, if_neg hempty, if_true]
        rfl
    · by_cases hempty : (w.self.active side).clId = 0
      · refine Or.inr (Or.inr ⟨w, Or.inl rfl, rfl, hempty, ?_⟩)
        simp only [managed, NativeMarketMaker.manage, if_neg hpx, if_pos hempty, if_true]
        rfl
      · refine Or.inl ⟨not_not.mp hpx, ?_⟩
        simp only [managed, NativeMarketMaker.manage, if_neg hpx, if_neg hempty, if_true]
        rfl

/-- `cancel_all` pulls the bid and then the ask, and it cannot overflow. -/
theorem World.step_cancelAll (w : World) (cfg : StrategyConfig) :
    w.step cfg .cancelAll = some ((w.pulled .bid).pulled .ask) := rfl

/-- A book that the strategy does not quote on. -/
theorem World.step_invalid {tob : ShmTopOfBook} (hbook : validBook tob = false) (nowNs : Int64) :
    w.step cfg (.tob tob nowNs) = some (((w.noted tob nowNs).pulled .bid).pulled .ask) := by
  rw [step, Native.step, NativeMarketMaker.onTob, hbook]
  rfl

/-- A book that the strategy quotes on. -/
theorem World.step_valid {tob : ShmTopOfBook} (hbook : validBook tob = true) (nowNs : Int64) :
    w.step cfg (.tob tob nowNs) = do
      let (bid, ask) ← targets cfg w.self.position tob
      let v := (w.noted tob nowNs).managed cfg .bid
        (w.self.position < cfg.maxPosition.toInt && bid < tob.askPx.toInt) bid tob.mdSeq
      let low ← checked (-cfg.maxPosition.toInt)
      return v.managed cfg .ask (low < v.self.position && tob.bidPx.toInt < ask) ask tob.mdSeq := by
  rw [step, Native.step, onTob, hbook]
  change Option.map _ ((targets cfg w.self.position tob).bind _) = Option.bind _ _
  cases targets cfg w.self.position tob with
  | none => rfl
  | some prices =>
    change Option.map _ ((checked (-cfg.maxPosition.toInt)).bind _) =
      (checked (-cfg.maxPosition.toInt)).bind _
    cases checked (-cfg.maxPosition.toInt) <;> rfl

/-- A checked number is the number. -/
theorem eq_of_checked {z z' : ℤ} (h : checked z = some z') : z' = z := by
  rw [checked] at h
  split_ifs at h
  exact (Option.some.inj h).symm

/-! ## The slots -/

/-- Clearing a side leaves the id of the other. -/
theorem clId_clear (s : NativeMarketMaker) (side side' : Side) :
    ((s.clear side).active side').clId = if side' = side then 0 else (s.active side').clId := by
  rw [clear]
  dsimp only
  split_ifs with h
  · rw [h, Function.update_self]
  · rw [Function.update_of_ne h]

/-- It leaves both prices. -/
theorem px_clear (s : NativeMarketMaker) (side side' : Side) :
    ((s.clear side).active side').px = (s.active side').px := by
  rw [clear]
  dsimp only
  by_cases h : side' = side
  · rw [h, Function.update_self]
  · rw [Function.update_of_ne h]

/-- A side that is pulled has no active order, and the other keeps its own. -/
theorem clId_pulled (w : World) (side side' : Side) :
    ((w.pulled side).self.active side').clId =
      if side' = side then 0 else (w.self.active side').clId := by
  rw [World.pulled, pull]
  split_ifs with hactive hside hside
  · exact (clId_clear _ _ _).trans (if_pos hside)
  · exact (clId_clear _ _ _).trans (if_neg hside)
  · rw [hside]
    exact not_not.mp hactive
  · rfl

/-- So does pulling a side. -/
theorem px_pulled (w : World) (side side' : Side) :
    ((w.pulled side).self.active side').px = (w.self.active side').px := by
  rw [World.pulled, pull]
  split_ifs
  · exact px_clear _ _ _
  · rfl

/-- A posted order is the active one of its side. -/
theorem active_posted (w : World) (side side' : Side) (target : ℤ) (mdSeq : UInt64) :
    (w.posted cfg side target mdSeq).self.active side' =
      if side' = side then { clId := w.self.nextClId, px := target } else w.self.active side' := by
  rw [World.posted, post]
  dsimp only
  split_ifs with h
  · rw [h, Function.update_self]
  · rw [Function.update_of_ne h]

/-- The side whose slot a report finds its id in: an empty slot holds 0. -/
def matched (s : NativeMarketMaker) (clId : UInt64) : Option Side :=
  if clId = (s.active .bid).clId then some .bid
  else if clId = (s.active .ask).clId then some .ask
  else none

/-- A side is matched by its id. -/
theorem clId_of_matched {s : NativeMarketMaker} {clId : UInt64} {side : Side}
    (h : matched s clId = some side) : (s.active side).clId = clId := by
  rw [matched] at h
  split_ifs at h with hbid hask
  · cases h
    exact hbid.symm
  · cases h
    exact hask.symm

/-- The id of an active order is matched. -/
theorem matched_ne_none {s : NativeMarketMaker} {clId : UInt64} {side : Side}
    (h : (s.active side).clId = clId) : matched s clId ≠ none := by
  rw [matched]
  split_ifs with hbid hask
  · exact fun heq => by contradiction
  · exact fun heq => by contradiction
  · cases side with
    | bid => exact absurd h.symm hbid
    | ask => exact absurd h.symm hask

/-- The sign of the quantity that a fill of a side adds to the position. -/
def sign : Option Side → ℤ
  | some .bid => 1
  | some .ask => -1
  | none => 0

/-- The strategy after a report has emptied a slot. -/
def emptied (s : NativeMarketMaker) : Option Side → NativeMarketMaker
  | some side => s.clear side
  | none => s

/-- Emptying a matched side clears its id. -/
theorem clId_emptied (s : NativeMarketMaker) (slot : Option Side) (side : Side) :
    ((emptied s slot).active side).clId =
      if slot = some side then 0 else (s.active side).clId := by
  cases slot with
  | none => exact (if_neg fun h => by contradiction).symm
  | some side' =>
    refine (clId_clear s side' side).trans (if_congr ?_ rfl rfl)
    rw [Option.some.injEq, eq_comm]

/-- A report empties a slot at most. -/
theorem clId_emptied_of_ne_zero {s : NativeMarketMaker} {slot : Option Side} {side : Side}
    (h : ((emptied s slot).active side).clId ≠ 0) :
    ((emptied s slot).active side).clId = (s.active side).clId := by
  rw [clId_emptied] at h ⊢
  split_ifs at h ⊢
  · exact absurd rfl h
  · rfl

/-- It leaves both prices. -/
theorem px_emptied (s : NativeMarketMaker) (slot : Option Side) (side : Side) :
    ((emptied s slot).active side).px = (s.active side).px := by
  cases slot with
  | none => rfl
  | some side' => exact px_clear s side' side

/-- A fill empties the slot it finds its id in and is booked on the side of that slot. -/
theorem onFill_eq_some {s s' : NativeMarketMaker} {fill : ShmOrderFill}
    (h : s.onFill fill = some s') :
    s' = { emptied s (matched s fill.clId) with
      fillCount := s.fillCount + 1
      position := s.position + sign (matched s fill.clId) * fill.fillQty.toInt
      realizedPnl := s.realizedPnl -
        sign (matched s fill.clId) * (fill.fillPx.toInt * fill.fillQty.toInt) } := by
  rw [onFill] at h
  dsimp only at h
  rw [matched]
  split_ifs at h ⊢ with hbid hask
  · obtain ⟨position, hposition, h⟩ := Option.bind_eq_some_iff.mp h
    obtain ⟨notional, hnotional, h⟩ := Option.bind_eq_some_iff.mp h
    obtain ⟨pnl, hpnl, h⟩ := Option.bind_eq_some_iff.mp h
    cases h
    rw [eq_of_checked hposition, eq_of_checked hpnl, eq_of_checked hnotional, sign, one_mul,
      one_mul]
    rfl
  · obtain ⟨position, hposition, h⟩ := Option.bind_eq_some_iff.mp h
    obtain ⟨notional, hnotional, h⟩ := Option.bind_eq_some_iff.mp h
    obtain ⟨pnl, hpnl, h⟩ := Option.bind_eq_some_iff.mp h
    cases h
    rw [eq_of_checked hposition, eq_of_checked hpnl, eq_of_checked hnotional, sign, neg_one_mul,
      neg_one_mul, ← sub_eq_add_neg, sub_neg_eq_add]
    rfl
  · cases h
    rw [sign, zero_mul, zero_mul, add_zero, sub_zero]
    rfl

/-- A reject empties the slot it finds its id in. -/
theorem onReject_eq (s : NativeMarketMaker) (reject : ShmOrderReject) :
    s.onReject reject =
      { emptied s (matched s reject.clId) with rejectCount := s.rejectCount + 1 } := by
  rw [onReject, matched]
  dsimp only
  split_ifs <;> rfl

/-- A fill empties the side it matches, counts, and books its quantity and notional. -/
theorem World.step_fill {fill : ShmOrderFill} (h : w.step cfg (.fill fill) = some w') :
    w' = ⟨{ emptied w.self (matched w.self fill.clId) with
        fillCount := w.self.fillCount + 1
        position := w.self.position + sign (matched w.self fill.clId) * fill.fillQty.toInt
        realizedPnl := w.self.realizedPnl -
          sign (matched w.self fill.clId) * (fill.fillPx.toInt * fill.fillQty.toInt) },
      w.trace.filled fill⟩ := by
  obtain ⟨out, hout, rfl⟩ := Option.map_eq_some_iff.mp h
  obtain ⟨s', hs', rfl⟩ := Option.map_eq_some_iff.mp hout
  rw [← onFill_eq_some hs']
  rfl

/-- A reject empties the side it matches and counts. -/
theorem World.step_reject (w : World) (cfg : StrategyConfig) (reject : ShmOrderReject) :
    w.step cfg (.reject reject) =
      some ⟨{ emptied w.self (matched w.self reject.clId) with
        rejectCount := w.self.rejectCount + 1 }, w.trace.refused reject.clId⟩ := by
  rw [← onReject_eq]
  rfl

/-! ## The account -/

/-- The position, the profit and the fills behind them are the same. -/
structure SameAccount (w w' : World) : Prop where
  position : w'.self.position = w.self.position
  realizedPnl : w'.self.realizedPnl = w.self.realizedPnl
  executions : w'.trace.executions = w.trace.executions

/-- Nothing was booked. -/
theorem SameAccount.refl (w : World) : SameAccount w w := ⟨rfl, rfl, rfl⟩

/-- Nothing was booked twice. -/
theorem SameAccount.trans {u v w : World} (h : SameAccount u v) (h' : SameAccount v w) :
    SameAccount u w :=
  ⟨h'.position.trans h.position, h'.realizedPnl.trans h.realizedPnl,
    h'.executions.trans h.executions⟩

/-- A cancel books nothing. -/
theorem sameAccount_pulled (w : World) (side : Side) : SameAccount w (w.pulled side) := by
  rw [World.pulled, pull]
  split_ifs <;> exact ⟨rfl, rfl, rfl⟩

/-- A new order books nothing. -/
theorem sameAccount_posted (w : World) (side : Side) (target : ℤ) (mdSeq : UInt64) :
    SameAccount w (w.posted cfg side target mdSeq) := ⟨rfl, rfl, rfl⟩

/-- Managing a side books nothing. -/
theorem sameAccount_managed (w : World) (side : Side) (allowed : Bool) (target : ℤ)
    (mdSeq : UInt64) : SameAccount w (w.managed cfg side allowed target mdSeq) := by
  rcases w.managed_cases cfg side allowed target mdSeq with ⟨-, h⟩ | h | ⟨v, hv, -, -, h⟩
  · rw [h]
    exact .refl w
  · rw [h]
    exact sameAccount_pulled w side
  · rw [h]
    refine .trans ?_ (sameAccount_posted v side target mdSeq)
    rcases hv with rfl | rfl
    · exact .refl v
    · exact sameAccount_pulled w side

/-- A side may quote a price: what `on_tob` asks of the book and the position before it posts. -/
def MayQuote (cfg : StrategyConfig) (position : ℤ) (tob : ShmTopOfBook) (side : Side) (target : ℤ) :
    Prop :=
  validBook tob = true ∧ ∃ prices, targets cfg position tob = some prices ∧
    match side with
    | .bid => target = prices.1 ∧ position < cfg.maxPosition.toInt ∧ target < tob.askPx.toInt
    | .ask => target = prices.2 ∧ -cfg.maxPosition.toInt < position ∧ tob.bidPx.toInt < target

/-- A property that pulling a side keeps, and posting in the empty slot of a side that may quote, is
kept by managing a side. -/
theorem World.managed_induct {P : World → Prop} {side : Side} {allowed : Bool} {target : ℤ}
    {mdSeq : UInt64} (pulled : ∀ v, P v → P (v.pulled side))
    (posted : ∀ v, SameAccount w v → allowed = true → (v.self.active side).clId = 0 → P v →
      P (v.posted cfg side target mdSeq)) (h : P w) :
    P (w.managed cfg side allowed target mdSeq) := by
  rcases w.managed_cases cfg side allowed target mdSeq with ⟨-, heq⟩ | heq |
    ⟨v, hv, hall, hempty, heq⟩
  · rwa [heq]
  · rw [heq]
    exact pulled w h
  · rw [heq]
    rcases hv with rfl | rfl
    · exact posted v (.refl v) hall hempty h
    · exact posted _ (sameAccount_pulled w side) hall hempty (pulled w h)

/-- A property that noting a book and pulling a side keep, and posting in the empty slot of a side
that may quote, is kept by `on_tob`. -/
theorem World.tob_induct {P : World → Prop} {tob : ShmTopOfBook} {nowNs : Int64}
    (noted : P w → P (w.noted tob nowNs)) (pulled : ∀ v side, P v → P (v.pulled side))
    (posted : ∀ v side target, SameAccount w v →
      MayQuote cfg w.self.position tob side target → (v.self.active side).clId = 0 → P v →
      P (v.posted cfg side target tob.mdSeq))
    (h : P w) (hstep : w.step cfg (.tob tob nowNs) = some w') : P w' := by
  have hnoted := noted h
  have hsame : SameAccount w (w.noted tob nowNs) := ⟨rfl, rfl, rfl⟩
  cases hbook : validBook tob with
  | false =>
    rw [step_invalid hbook] at hstep
    cases hstep
    exact pulled _ _ (pulled _ _ hnoted)
  | true =>
    rw [step_valid hbook] at hstep
    obtain ⟨⟨bid, ask⟩, hprices, hstep⟩ := Option.bind_eq_some_iff.mp hstep
    obtain ⟨low, hlow, hstep⟩ := Option.bind_eq_some_iff.mp hstep
    cases hstep
    have hbid : SameAccount w ((w.noted tob nowNs).managed cfg .bid
        (w.self.position < cfg.maxPosition.toInt && bid < tob.askPx.toInt) bid tob.mdSeq) :=
      hsame.trans (sameAccount_managed _ _ _ _ _)
    refine managed_induct (fun v => pulled v .ask) (fun v hv hall hempty hP => ?_)
      (managed_induct (fun v => pulled v .bid) (fun v hv hall hempty hP => ?_) hnoted)
    · rw [Bool.and_eq_true, decide_eq_true_eq, decide_eq_true_eq, eq_of_checked hlow,
        hbid.position] at hall
      exact posted v .ask ask (hbid.trans hv) ⟨hbook, _, hprices, rfl, hall⟩ hempty hP
    · rw [Bool.and_eq_true, decide_eq_true_eq, decide_eq_true_eq] at hall
      exact posted v .bid bid (hsame.trans hv) ⟨hbook, _, hprices, rfl, hall⟩ hempty hP

/-- A book is not booked. -/
theorem sameAccount_tob {tob : ShmTopOfBook} {nowNs : Int64}
    (hstep : w.step cfg (.tob tob nowNs) = some w') : SameAccount w w' :=
  World.tob_induct (P := SameAccount w) (fun _ => ⟨rfl, rfl, rfl⟩)
    (fun v side h => h.trans (sameAccount_pulled v side))
    (fun v side target _ _ _ h => h.trans (sameAccount_posted v side target tob.mdSeq))
    (.refl w) hstep

/-- A reject books nothing. -/
theorem sameAccount_reject {reject : ShmOrderReject} (h : w.step cfg (.reject reject) = some w') :
    SameAccount w w' := by
  rw [World.step_reject] at h
  cases h
  refine ⟨?_, ?_, ?_⟩
  · cases matched w.self reject.clId <;> rfl
  · cases matched w.self reject.clId <;> rfl
  · exact Trace.executions_refused w.trace reject.clId

/-- Only a fill changes the account. -/
theorem sameAccount_step (hcall : ∀ fill, call ≠ .fill fill) (hstep : w.step cfg call = some w') :
    SameAccount w w' := by
  cases call with
  | tob tob nowNs => exact sameAccount_tob hstep
  | ack ack =>
    cases hstep
    exact ⟨rfl, rfl, rfl⟩
  | fill fill => exact absurd rfl (hcall fill)
  | reject reject => exact sameAccount_reject hstep
  | cancelAll =>
    cases hstep
    exact (sameAccount_pulled w .bid).trans (sameAccount_pulled _ .ask)

end Native

end MarketMaker
