import MarketMaker.Engine.OrderStep
import Mathlib.Algebra.BigOperators.Group.List.Basic

/-!
# The life of an order

What a client sees of one `cl_id` between the start of its session and `end_session`. `Life` is the
shape of a legal report sequence and `Life.Legal` its content; both are about reports only. `Tracks`
ties a report sequence to what the engine stores at the key. One `OrderStep` keeps it
(`Tracks.step`), so it holds along every run.
-/

namespace MarketMaker

/-- The engine id a report carries. -/
def OutMsg.engId : OutMsg → Option ℕ
  | .orderAck m => some m.engId
  | .cancelAck m => some m.engId
  | .fill m => some m.engId
  | _ => none

/-- The report is an event of an order's life: an ack, a fill or a cancel ack. -/
def OutMsg.isEvent : OutMsg → Bool
  | .orderAck _ => true
  | .cancelAck _ => true
  | .fill _ => true
  | _ => false

/-! ## Legal lives -/

/-- How the life of an accepted order ends. -/
inductive Ending
  | resting
  | filled (fill : Fill)
  | cancelled (ack : CancelAck)
  deriving DecidableEq, Repr

/-- The terminal report, if there is one yet. -/
def Ending.reports : Ending → List OutMsg
  | resting => []
  | filled fill => [.fill fill]
  | cancelled ack => [.cancelAck ack]

/-- The fill that completes the order, if it does. -/
def Ending.fills : Ending → List Fill
  | filled fill => [fill]
  | _ => []

/-- The events of an accepted order, in order. -/
structure Life where
  ack : OrderAck
  /-- The fills that leave something. -/
  partials : List Fill
  ending : Ending
  deriving DecidableEq, Repr

namespace Life

/-- The report sequence of a life: the ack, the partial fills, the terminal report. -/
def reports (l : Life) : List OutMsg :=
  .orderAck l.ack :: (l.partials.map .fill ++ l.ending.reports)

/-- All fills of a life. -/
def fills (l : Life) : List Fill := l.partials ++ l.ending.fills

/-- The life is a correct account of `order`, accepted at `key`. -/
structure Legal (key : OrderKey) (order : NewOrder) (l : Life) : Prop where
  clId : ∀ r ∈ l.reports, r.clId = some key.clId
  engId : ∀ r ∈ l.reports, r.engId = some l.ack.engId
  leaves_pos : ∀ f ∈ l.partials, 0 < f.leaves
  leaves_decreasing : (order.qty :: l.fills.map (·.leaves)).Pairwise (· > ·)
  completed : ∀ f, l.ending = .filled f → f.leaves = 0
  px : ∀ f ∈ l.fills, f.px = order.px
  /-- After each fill, what has been traded and what is left add up to the order. -/
  conserved : ∀ done f, done ++ [f] <+: l.fills →
    (done.map (·.qty)).sum + f.qty + f.leaves = order.qty

/-- The life of an order that has only been accepted. -/
def start (ack : OrderAck) : Life := ⟨ack, [], .resting⟩

/-- The life after one more fill. -/
def trade (l : Life) (f : Fill) : Life :=
  if f.leaves = 0 then { l with ending := .filled f }
  else { l with partials := l.partials ++ [f] }

/-- The life after a cancel. -/
def cancel (l : Life) (ack : CancelAck) : Life := { l with ending := .cancelled ack }

variable {key : OrderKey} {order : NewOrder} {l : Life}

/-- A life starts with its ack. -/
theorem legal_start {ack : OrderAck} (h : ack.clId = key.clId) : (start ack).Legal key order where
  clId := by simp [start, reports, Ending.reports, OutMsg.clId, h]
  engId := by simp [start, reports, Ending.reports, OutMsg.engId]
  leaves_pos := by simp [start]
  leaves_decreasing := by simp [start, fills, Ending.fills]
  completed := by simp [start]
  px := by simp [start, fills, Ending.fills]
  conserved := by simp [start, fills, Ending.fills]

/-- A fill is the next report. -/
theorem reports_trade (h : l.ending = .resting) (f : Fill) :
    (l.trade f).reports = l.reports ++ [.fill f] := by
  unfold trade
  split_ifs <;> simp [reports, h, Ending.reports]

/-- It is the next fill. -/
theorem fills_trade (h : l.ending = .resting) (f : Fill) : (l.trade f).fills = l.fills ++ [f] := by
  unfold trade
  split_ifs <;> simp [fills, h, Ending.fills]

/-- A cancel ack is the last report. -/
theorem reports_cancel (h : l.ending = .resting) (ack : CancelAck) :
    (l.cancel ack).reports = l.reports ++ [.cancelAck ack] := by
  simp [cancel, reports, h, Ending.reports]

/-- It is no fill. -/
theorem fills_cancel (h : l.ending = .resting) (ack : CancelAck) :
    (l.cancel ack).fills = l.fills := by
  simp [cancel, fills, h, Ending.fills]

/-- The ack stays. -/
@[simp]
theorem ack_trade (f : Fill) : (l.trade f).ack = l.ack := by
  unfold trade
  split_ifs <;> rfl

/-- A fill of a resting order keeps its life legal. -/
theorem Legal.trade (hl : l.Legal key order) (h : l.ending = .resting) {f : Fill}
    (hid : f.clId = key.clId) (heng : f.engId = l.ack.engId) (hpx : f.px = order.px)
    (hpos : 0 ≤ f.leaves) (hlt : ∀ q ∈ order.qty :: l.fills.map (·.leaves), f.leaves < q)
    (hsum : (l.fills.map (·.qty)).sum + f.qty + f.leaves = order.qty) :
    (l.trade f).Legal key order where
  clId r hr := by
    rw [reports_trade h, List.mem_append, List.mem_singleton] at hr
    rcases hr with hr | rfl
    · exact hl.clId r hr
    · exact congrArg some hid
  engId r hr := by
    rw [reports_trade h, List.mem_append, List.mem_singleton] at hr
    rw [ack_trade]
    rcases hr with hr | rfl
    · exact hl.engId r hr
    · exact congrArg some heng
  leaves_pos g hg := by
    unfold Life.trade at hg
    split_ifs at hg with h0
    · exact hl.leaves_pos g hg
    · rcases List.mem_append.mp hg with hg | hg
      · exact hl.leaves_pos g hg
      · rw [List.mem_singleton.mp hg]
        omega
  leaves_decreasing := by
    rw [fills_trade h, List.map_append, ← List.cons_append, List.pairwise_append]
    refine ⟨hl.leaves_decreasing, by simp, ?_⟩
    intro q hq q' hq'
    simp only [List.map_cons, List.map_nil, List.mem_singleton] at hq'
    rw [hq']
    exact hlt q hq
  completed g hg := by
    unfold Life.trade at hg
    split_ifs at hg with h0
    · cases hg
      exact h0
    · simp [h] at hg
  px g hg := by
    rw [fills_trade h, List.mem_append, List.mem_singleton] at hg
    rcases hg with hg | rfl
    · exact hl.px g hg
    · exact hpx
  conserved done g hpre := by
    rw [fills_trade h, List.prefix_concat_iff] at hpre
    rcases hpre with heq | hpre
    · obtain ⟨rfl, hg⟩ := List.append_inj' heq rfl
      cases hg
      exact hsum
    · exact hl.conserved done g hpre

/-- A cancel of a resting order keeps its life legal. -/
theorem Legal.cancel (hl : l.Legal key order) (h : l.ending = .resting) {ack : CancelAck}
    (hid : ack.clId = key.clId) (heng : ack.engId = l.ack.engId) :
    (l.cancel ack).Legal key order where
  clId r hr := by
    rw [reports_cancel h, List.mem_append, List.mem_singleton] at hr
    rcases hr with hr | rfl
    · exact hl.clId r hr
    · exact congrArg some hid
  engId r hr := by
    rw [reports_cancel h, List.mem_append, List.mem_singleton] at hr
    rcases hr with hr | rfl
    · exact hl.engId r hr
    · exact congrArg some heng
  leaves_pos := hl.leaves_pos
  leaves_decreasing := by
    rw [fills_cancel h]
    exact hl.leaves_decreasing
  completed g hg := by cases hg
  px := by
    rw [fills_cancel h]
    exact hl.px
  conserved := by
    rw [fills_cancel h]
    exact hl.conserved

end Life

namespace OrderEngine

variable {cfg : EngineConfig} {e : OrderEngine} {key : OrderKey}

/-! ## What a run shows of one key -/

/-- The calls of a history, each with the reports it drew for the key. -/
def keyTrace (key : OrderKey) (history : List (Call × List Routed)) : List (Call × List OutMsg) :=
  history.map fun p => (p.1, reportsFor key p.2)

/-- The life events of a trace; rejects are not among them. -/
def lifeEvents (trace : List (Call × List OutMsg)) : List OutMsg :=
  (trace.flatMap Prod.snd).filter (·.isEvent)

/-- Some `NewOrder` has used the key's `cl_id`, whatever the answer was. -/
def Used (key : OrderKey) (calls : List Call) : Prop :=
  ∃ order, .onNew key.session order ∈ calls ∧ order.clId = key.clId

/-- `life` is a session lifetime, or a part of one that has not ended yet, after `before`. -/
structure IsLifetime (session : ℕ) (before life : List Call) : Prop where
  starts : before = [] ∨ before.getLast? = some (.endSession session)
  ends : .endSession session ∉ life.dropLast

/-- What is stored at a key agrees with the trace of its lifetime. -/
inductive Tracks (cfg : EngineConfig) (key : OrderKey) :
    Option Order → List (Call × List OutMsg) → Prop
  | unused {trace : List (Call × List OutMsg)} (fresh : ¬Used key (trace.map Prod.fst))
      (events : lifeEvents trace = []) : Tracks cfg key none trace
  | rejected {ord : Order} {trace : List (Call × List OutMsg)}
      (used : Used key (trace.map Prod.fst)) (events : lifeEvents trace = [])
      (st : ord.st = .rejected) : Tracks cfg key (some ord) trace
  | accepted {ord : Order} {trace : List (Call × List OutMsg)} (order : NewOrder) (l : Life)
      (called : (.onNew key.session order, [.orderAck l.ack]) ∈ trace)
      (hid : order.clId = key.clId)
      (valid : ValidOrder cfg.inst order.symbol order.side order.px order.qty)
      (events : lifeEvents trace = l.reports) (legal : l.Legal key order)
      (engId : ord.engId = l.ack.engId) (px : toRawPx cfg.inst ord.px = order.px)
      (conserved : (l.fills.map (·.qty)).sum + ord.leaves = order.qty)
      (least : ∀ q ∈ order.qty :: l.fills.map (·.leaves), ord.leaves ≤ q)
      (resting : ord.st = .live ↔ l.ending = .resting) : Tracks cfg key (some ord) trace

variable {stored stored' : Option Order} {trace : List (Call × List OutMsg)} {call : Call}
  {out : List OutMsg}

/-- The reports of a life are read off the trace in order. -/
theorem lifeEvents_concat (trace : List (Call × List OutMsg)) (call : Call) (out : List OutMsg) :
    lifeEvents (trace ++ [(call, out)]) = lifeEvents trace ++ out.filter (·.isEvent) := by
  simp [lifeEvents]

/-- An id is used by a new order. -/
theorem used_concat {calls : List Call} (call : Call) :
    Used key (calls ++ [call]) ↔
      Used key calls ∨ ∃ order, call = .onNew key.session order ∧ order.clId = key.clId := by
  simp only [Used, List.mem_append, List.mem_singleton]
  constructor
  · rintro ⟨order, hmem | heq, hid⟩
    · exact Or.inl ⟨order, hmem, hid⟩
    · exact Or.inr ⟨order, heq.symm, hid⟩
  · rintro (⟨order, hmem, hid⟩ | ⟨order, heq, hid⟩)
    · exact ⟨order, Or.inl hmem, hid⟩
    · exact ⟨order, Or.inr heq.symm, hid⟩

/-- A call that neither uses a fresh key nor reports an event changes nothing. -/
theorem Tracks.silent (h : Tracks cfg key stored trace) (hout : out.filter (·.isEvent) = [])
    (hnew : stored = none → ∀ order, order.clId = key.clId → call ≠ .onNew key.session order) :
    Tracks cfg key stored (trace ++ [(call, out)]) := by
  have hevents : lifeEvents (trace ++ [(call, out)]) = lifeEvents trace := by
    rw [lifeEvents_concat, hout, List.append_nil]
  cases h with
  | unused fresh events =>
    refine .unused ?_ (hevents.trans events)
    rw [List.map_append, List.map_singleton, used_concat]
    rintro (hu | ⟨order, heq, hid⟩)
    · exact fresh hu
    · exact hnew rfl order hid heq
  | rejected used events st =>
    refine .rejected ?_ (hevents.trans events) st
    rw [List.map_append, List.map_singleton, used_concat]
    exact Or.inl used
  | accepted order l called hid valid events legal engId px conserved least resting =>
    exact .accepted order l (List.mem_append_left _ called) hid valid (hevents.trans events) legal
      engId px conserved least resting

/-- The first `NewOrder` of a key is rejected. -/
private theorem Tracks.reject (h : Tracks cfg key none trace) {order : NewOrder} {ord : Order}
    (hid : order.clId = key.clId) (hst : ord.st = .rejected)
    (hout : out.filter (·.isEvent) = []) :
    Tracks cfg key (some ord) (trace ++ [(.onNew key.session order, out)]) := by
  cases h with
  | unused fresh events =>
    refine .rejected ?_ ?_ hst
    · rw [List.map_append, List.map_singleton, used_concat]
      exact Or.inr ⟨order, rfl, hid⟩
    · rw [lifeEvents_concat, hout, List.append_nil, events]

/-- The first `NewOrder` of a key is accepted. -/
private theorem Tracks.accept (h : Tracks cfg key none trace) {order : NewOrder} {engId : ℕ}
    {side : Side} (hid : order.clId = key.clId)
    (valid : ValidOrder cfg.inst order.symbol order.side order.px order.qty) :
    Tracks cfg key
      (some { engId, side, px := toTicks cfg.inst order.px, leaves := order.qty, st := .live })
      (trace ++ [(.onNew key.session order,
        [.orderAck { clId := key.clId, engId, status := ascii "live" }])]) := by
  cases h with
  | unused fresh events =>
    refine .accepted order (.start { clId := key.clId, engId, status := ascii "live" })
      (List.mem_append_right _ (List.mem_singleton.mpr rfl)) hid valid ?_
      (Life.legal_start rfl) rfl (toRawPx_toTicks valid.tick) ?_ ?_ ?_
    · rw [lifeEvents_concat, events]
      rfl
    · simp [Life.start, Life.fills, Ending.fills]
    · simp [Life.start, Life.fills, Ending.fills]
    · simp [Life.start]

/-- A live order that is tracked is a resting life. -/
private theorem Tracks.cancel {ord : Order} (h : Tracks cfg key (some ord) trace)
    (hst : ord.st = .live) :
    Tracks cfg key (some { ord with st := .cancelled })
      (trace ++ [(call, [cancelAckOf key ord])]) := by
  cases h with
  | rejected _ _ st => rw [hst] at st; cases st
  | accepted order l called hid valid events legal engId px conserved least resting =>
    have hrest := resting.mp hst
    let ack : CancelAck :=
      { clId := key.clId, engId := ord.engId, status := ascii "cancelled" }
    refine .accepted order (l.cancel ack) (List.mem_append_left _ called) hid valid ?_
      (legal.cancel hrest rfl engId) engId px ?_ ?_ ?_
    · rw [lifeEvents_concat, events, Life.reports_cancel hrest]
      rfl
    · rw [Life.fills_cancel hrest]
      exact conserved
    · rw [Life.fills_cancel hrest]
      exact least
    · simp [Life.cancel]

/-- A fill of the stored order is the next one of its life. -/
private theorem Tracks.fill {ord : Order} {book : Book} (h : Tracks cfg key (some ord) trace)
    (hit : isFilled cfg book ord = true) (hpos : 0 < ord.leaves) (execId : ℕ) :
    Tracks cfg key (some (swept cfg book ord))
      (trace ++ [(call, [.fill (fillOf cfg book key ord execId)])]) := by
  have hst := st_of_isFilled hit
  cases h with
  | rejected _ _ st => rw [hst] at st; cases st
  | accepted order l called hid valid events legal engId px conserved least resting =>
    have hrest := resting.mp hst
    obtain ⟨hqty, hle⟩ := fillQty_bounds hit hpos
    have hleaves : (swept cfg book ord).leaves = (fillOf cfg book key ord execId).leaves := by
      rw [swept_of_isFilled hit]
      rfl
    have hfill : (fillOf cfg book key ord execId).leaves = ord.leaves - fillQty book ord := rfl
    have hfillQty : (fillOf cfg book key ord execId).qty = fillQty book ord := rfl
    refine .accepted order (l.trade (fillOf cfg book key ord execId))
      (List.mem_append_left _ (by rw [Life.ack_trade]; exact called)) hid valid ?_
      (legal.trade hrest rfl engId px ?_ ?_ ?_) ?_ ?_ ?_ ?_ ?_
    · rw [lifeEvents_concat, events, Life.reports_trade hrest]
      rfl
    · rw [hfill]
      omega
    · intro q hq
      have := least q hq
      rw [hfill]
      omega
    · rw [hfill, hfillQty]
      omega
    · rw [engId_swept, Life.ack_trade, engId]
    · rw [px_swept, px]
    · rw [hleaves, Life.fills_trade hrest, List.map_append, List.sum_append, hfill]
      simp only [List.map_cons, List.map_nil, List.sum_cons, List.sum_nil, hfillQty]
      omega
    · intro q hq
      rw [hleaves]
      rw [Life.fills_trade hrest, List.map_append, ← List.cons_append, List.mem_append] at hq
      rcases hq with hq | hq
      · have := least q hq
        rw [hfill]
        omega
      · simp only [List.map_cons, List.map_nil, List.mem_singleton] at hq
        exact hq.ge
    · -- the order is done exactly when the fill leaves nothing
      rw [st_swept_eq_live_iff, Life.trade, hfill]
      by_cases h0 : ord.leaves - fillQty book ord = 0
      · simp [h0, hit]
      · simp [h0, hst, hrest]

/-- Every step of the order, other than the end of its session, keeps its trace in agreement. -/
theorem Tracks.step (h : Tracks cfg key stored trace)
    (hstep : OrderStep cfg key call stored stored' out) (hend : call ≠ .endSession key.session) :
    Tracks cfg key stored' (trace ++ [(call, out)]) := by
  cases hstep with
  | quiet hnew _ _ => exact h.silent rfl fun _ => hnew
  | duplicate _ => exact h.silent rfl fun hnone => by cases hnone
  | rejected hid code reason => exact h.reject hid rfl rfl
  | accepted hid engId side valid _ => exact h.accept hid valid
  | unknown _ => exact h.silent rfl fun _ _ _ heq => by cases heq
  | terminal _ _ => exact h.silent rfl fun hnone => by cases hnone
  | cancelled _ live => exact h.cancel live
  | filled hit hpos execId => exact h.fill hit hpos execId
  | reaped _ => exact absurd rfl hend

/-- A run from a state without an entry at the key keeps the trace in agreement until the session
ends. -/
private theorem tracks_run (hinv : Inv cfg e) (hnone : e.orders.find? key = none)
    (life : List Call) (hlife : .endSession key.session ∉ life) :
    Tracks cfg key ((Mealy.run (OrderEngine.step cfg) e life).1.orders.find? key)
      (keyTrace key (Mealy.run (OrderEngine.step cfg) e life).2) := by
  have hrun := Mealy.run_induct (OrderEngine.step cfg) (s := e) (P := fun e' history =>
    Inv cfg e' ∧ (.endSession key.session ∉ history.map Prod.fst →
      Tracks cfg key (e'.orders.find? key) (keyTrace key history))) ?_ ?_ life
  · refine hrun.2 ?_
    rw [Mealy.map_fst_run]
    exact hlife
  · refine ⟨hinv, fun _ => ?_⟩
    rw [hnone]
    exact .unused (by simp [Used, keyTrace]) rfl
  · rintro e' history call ⟨hinv', htracks⟩
    refine ⟨inv_step hinv' call, fun hno => ?_⟩
    rw [List.map_append, List.mem_append, not_or] at hno
    have hcall : call ≠ .endSession key.session := fun heq => hno.2 (by simp [heq])
    have hstep := (htracks hno.1).step (orderStep_step hinv' call key) hcall
    simpa [keyTrace] using hstep

/-! ## Execution ids -/

/-- Executions are numbered from 1 on. -/
private theorem execIds_run (cfg : EngineConfig) (calls : List Call) :
    Inv cfg (run cfg calls).1 ∧
      ∃ n, execIds (run cfg calls).2 = List.range' 1 n ∧ (run cfg calls).1.nextExecId = n + 1 := by
  refine Mealy.run_induct (step cfg) (P := fun e h => Inv cfg e ∧
    ∃ n, execIds h = List.range' 1 n ∧ e.nextExecId = n + 1) ⟨inv_init cfg, 0, rfl, rfl⟩ ?_ calls
  rintro e history call ⟨hinv, n, hids, hnext⟩
  obtain ⟨m, hout, hnext'⟩ := execIds_step cfg hinv.indexed call
  refine ⟨inv_step hinv call, n + m, ?_, by omega⟩
  have hconcat : execIds (history ++ [(call, (step cfg e call).2)]) =
      execIds history ++ (step cfg e call).2.filterMap execId := by
    simp [execIds]
  rw [hconcat, hids, hout, hnext, Nat.add_comm n 1, List.range'_append_1]

/-! ## Every lifetime of every key -/

/-- At the start of a lifetime nothing is stored at the session's keys. -/
private theorem find?_before (cfg : EngineConfig) {before : List Call}
    (h : before = [] ∨ before.getLast? = some (.endSession key.session)) :
    (run cfg before).1.orders.find? key = none := by
  rcases h with rfl | h
  · rfl
  · obtain ⟨calls, rfl⟩ := List.getLast?_eq_some_iff.mp h
    rw [run, Mealy.run_concat]
    simp only [step, routeTo, orders_endSession, find?_eraseSession, if_pos]

/-- The key is stored exactly when its `cl_id` has been used. -/
private theorem Tracks.used_iff (h : Tracks cfg key stored trace) :
    Used key (trace.map Prod.fst) ↔ ∃ ord, stored = some ord := by
  cases h with
  | unused fresh _ => simp [fresh]
  | rejected used _ _ => simp [used]
  | accepted order _ called hid _ _ _ _ _ _ _ _ =>
    exact ⟨fun _ => ⟨_, rfl⟩, fun _ => ⟨order, List.mem_map.mpr ⟨_, called, rfl⟩, hid⟩⟩

/-- The account that a trace gives of its order. -/
private theorem Tracks.account (h : Tracks cfg key stored trace) :
    lifeEvents trace = [] ∨ ∃ (order : NewOrder) (l : Life),
      (.onNew key.session order, [.orderAck l.ack]) ∈ trace ∧ order.clId = key.clId ∧
      ValidOrder cfg.inst order.symbol order.side order.px order.qty ∧
      lifeEvents trace = l.reports ∧ l.Legal key order ∧
      ∀ ord, stored = some ord → (l.fills.map (·.qty)).sum + ord.leaves = order.qty ∧
        (ord.st = .live ↔ l.ending = .resting) := by
  cases h with
  | unused _ events => exact Or.inl events
  | rejected _ events _ => exact Or.inl events
  | accepted order l called hid valid events legal _ _ conserved _ resting =>
    refine Or.inr ⟨order, l, called, hid, valid, events, legal, fun ord hord => ?_⟩
    cases hord
    exact ⟨conserved, resting⟩

/-- The end of the session closes the life: a resting order gets its cancel ack. -/
private theorem Tracks.reap (h : Tracks cfg key stored trace) :
    ∃ last, Tracks cfg key last (trace ++ [(.endSession key.session, reapAcks key stored)]) := by
  cases stored with
  | none => exact ⟨none, h.silent rfl fun _ _ _ heq => by cases heq⟩
  | some ord =>
    by_cases hst : ord.st = .live
    · rw [reapAcks, if_pos hst]
      exact ⟨_, h.cancel hst⟩
    · rw [reapAcks, if_neg hst]
      exact ⟨some ord, h.silent rfl fun hnone => by cases hnone⟩

/-- The trace of a lifetime is in agreement with what was stored last, also once the session has
ended and nothing is stored any more. -/
private theorem exists_tracks (hinv : Inv cfg e) (hnone : e.orders.find? key = none)
    {life : List Call} (hlife : .endSession key.session ∉ life.dropLast) :
    ∃ last, Tracks cfg key last (keyTrace key (Mealy.run (OrderEngine.step cfg) e life).2) ∧
      ∀ ord, (Mealy.run (OrderEngine.step cfg) e life).1.orders.find? key = some ord →
        last = some ord := by
  by_cases hend : .endSession key.session ∈ life
  · -- the end of the session is the last call, and the calls before it are tracked
    obtain ⟨calls, call, rfl⟩ :=
      (List.eq_nil_or_concat' life).resolve_left (List.ne_nil_of_mem hend)
    rw [List.dropLast_concat] at hlife
    have hcall : call = .endSession key.session := by
      rcases List.mem_append.mp hend with hmem | hmem
      · exact absurd hmem hlife
      · exact (List.mem_singleton.mp hmem).symm
    subst hcall
    have htracks := tracks_run hinv hnone calls hlife
    rw [Mealy.run_concat]
    generalize Mealy.run (OrderEngine.step cfg) e calls = r at htracks
    obtain ⟨last, hlast⟩ := htracks.reap
    refine ⟨last, ?_, fun ord hord => ?_⟩
    · simpa [keyTrace, OrderEngine.step, routeTo, endSession, reportsFor_sessionAcks] using hlast
    · simp [OrderEngine.step, routeTo, orders_endSession, find?_eraseSession] at hord
  · exact ⟨_, tracks_run hinv hnone life hend, fun _ hord => hord⟩

/-! A call on a key that the engine cannot serve is answered and changes nothing. -/

/-- A used id is a duplicate. -/
theorem step_onNew_of_stored {order : NewOrder} {ord : Order} (hid : order.clId = key.clId)
    (hord : e.orders.find? key = some ord) :
    step cfg e (.onNew key.session order) =
      (e, [⟨key.session, .reject (makeReject key.clId .dupClOrdId
        (ascii "cl_id already used on this session"))⟩]) := by
  have hkey : e.orders.find? ⟨key.session, order.clId⟩ = some ord := by rw [hid]; exact hord
  have hdup : e.isDuplicate key.session order.clId = true := isDuplicate_iff.mpr ⟨ord, hkey⟩
  rw [step, onNew, if_pos hdup, hid]
  rfl

/-- An id that is not stored is unknown. -/
theorem step_onCancel_of_unknown {cancel : CancelOrder} (hid : cancel.clId = key.clId)
    (hnone : e.orders.find? key = none) :
    step cfg e (.onCancel key.session cancel) =
      (e, [⟨key.session, .reject (makeReject key.clId .unknownClOrdId
        (ascii "unknown cl_id on this session"))⟩]) := by
  have hkey : e.orders.find? ⟨key.session, cancel.clId⟩ = none := by rw [hid]; exact hnone
  simp only [step, onCancel, hkey]
  rw [hid]
  rfl

/-- An order that is not live is terminal. -/
theorem step_onCancel_of_dead {cancel : CancelOrder} {ord : Order} (hid : cancel.clId = key.clId)
    (hord : e.orders.find? key = some ord) (hst : ord.st ≠ .live) :
    step cfg e (.onCancel key.session cancel) =
      (e, [⟨key.session, .reject (makeReject key.clId .alreadyTerminal
        (ascii "order is already terminal"))⟩]) := by
  have hkey : e.orders.find? ⟨key.session, cancel.clId⟩ = some ord := by rw [hid]; exact hord
  simp only [step, onCancel, hkey, if_pos hst]
  rw [hid]
  rfl

/-- The ticks of an `int64` price are an `int64`: the division truncates towards zero. -/
theorem inInt64_toTicks (cfg : EngineConfig) {px : ℤ} (h : InInt64 px) :
    InInt64 (toTicks cfg.inst px).v := by
  obtain ⟨hlo, hhi⟩ := h
  have hbound := Int.natAbs_tdiv_le_natAbs px cfg.inst.tickSize
  simp only [InInt64, toTicks]
  rcases le_total 0 px with hpx | hpx
  · have hnonneg := Int.tdiv_nonneg hpx cfg.tickSize_pos.le
    omega
  · have hneg := Int.tdiv_nonneg (Int.neg_nonneg.mpr hpx) cfg.tickSize_pos.le
    rw [Int.neg_tdiv] at hneg
    omega

/-- The reports for one `cl_id` over one session lifetime are a legal order life: nothing, or an
ack of a valid `NewOrder`, fills with strictly decreasing positive leaves, and at most one terminal
report, all under the accepted `eng_id`, at the accepted price to the last bit and with quantities
that add up. A used `cl_id` answers `DUP_CLORDID`, a cancel of a finished one `ALREADY_TERMINAL`
and of an unused one `UNKNOWN_CLORDID`, each without any change. Over the whole run the `exec_id`s
are `1, 2, 3, …`. -/
theorem run_orderLife (cfg : EngineConfig) (before life : List Call) (key : OrderKey)
    (hlife : IsLifetime key.session before life) :
    let e := (run cfg (before ++ life)).1
    let trace := keyTrace key (Mealy.run (step cfg) (run cfg before).1 life).2
    (lifeEvents trace = [] ∨ ∃ (order : NewOrder) (l : Life),
      (.onNew key.session order, [.orderAck l.ack]) ∈ trace ∧ order.clId = key.clId ∧
      lifeEvents trace = l.reports ∧ l.Legal key order ∧
      toRawPx cfg.inst (toTicks cfg.inst order.px) = order.px ∧
      (InInt64 order.px → InInt64 (toTicks cfg.inst order.px).v) ∧
      ∀ ord, e.orders.find? key = some ord →
        (l.fills.map (·.qty)).sum + ord.leaves = order.qty ∧
        (ord.st = .live ↔ l.ending = .resting)) ∧
    (.endSession key.session ∉ life →
      (Used key life ↔ ∃ ord, e.orders.find? key = some ord) ∧
      (∀ order : NewOrder, order.clId = key.clId → Used key life →
        step cfg e (.onNew key.session order) =
          (e, [⟨key.session, .reject (makeReject key.clId .dupClOrdId
            (ascii "cl_id already used on this session"))⟩])) ∧
      (∀ cancel : CancelOrder, cancel.clId = key.clId → ¬Used key life →
        step cfg e (.onCancel key.session cancel) =
          (e, [⟨key.session, .reject (makeReject key.clId .unknownClOrdId
            (ascii "unknown cl_id on this session"))⟩])) ∧
      ∀ (cancel : CancelOrder) (ord : Order), cancel.clId = key.clId →
        e.orders.find? key = some ord → ord.st ≠ .live →
        step cfg e (.onCancel key.session cancel) =
          (e, [⟨key.session, .reject (makeReject key.clId .alreadyTerminal
            (ascii "order is already terminal"))⟩])) ∧
    ∃ n, execIds (run cfg (before ++ life)).2 = List.range' 1 n ∧ e.nextExecId = n + 1 := by
  intro e trace
  have he : e = (Mealy.run (step cfg) (run cfg before).1 life).1 := by
    simp only [e, run, Mealy.run_append]
  have hinv : Inv cfg (run cfg before).1 := inv_of_reachable ⟨before, rfl⟩
  have hnone := find?_before cfg hlife.starts
  refine ⟨?_, fun hopen => ?_, (execIds_run cfg (before ++ life)).2⟩
  -- the trace is that of the last lifetime, whether or not the session has ended since
  · obtain ⟨last, htracks, hlast⟩ := exists_tracks hinv hnone hlife.ends
    rw [← he] at hlast
    rcases htracks.account with hnil | ⟨order, l, called, hid, valid, hevents, legal, hstored⟩
    · exact Or.inl hnil
    · exact Or.inr ⟨order, l, called, hid, hevents, legal, toRawPx_toTicks valid.tick,
        inInt64_toTicks cfg, fun ord hord => hstored ord (hlast ord hord)⟩
  · have htracks := tracks_run hinv hnone life hopen
    rw [← he] at htracks
    -- while the session is open the stored entry remembers that the id was used
    have hused : Used key life ↔ ∃ ord, e.orders.find? key = some ord := by
      have hcalls : (keyTrace key (Mealy.run (step cfg) (run cfg before).1 life).2).map Prod.fst =
          life := by
        rw [keyTrace, List.map_map]
        exact Mealy.map_fst_run _ _ _
      rw [← htracks.used_iff, hcalls]
    refine ⟨hused, fun order hid hu => ?_, fun cancel hid hu => ?_,
      fun cancel ord hid hord hst => ?_⟩
    · obtain ⟨ord, hord⟩ := hused.mp hu
      exact step_onNew_of_stored hid hord
    · have hnone : e.orders.find? key = none := by
        rw [hused, ← Option.isSome_iff_exists] at hu
        exact Option.not_isSome_iff_eq_none.mp hu
      exact step_onCancel_of_unknown hid hnone
    · exact step_onCancel_of_dead hid hord hst

/-- A bid that trades in two fills, is cancelled too late and then reaped. -/
def filledLife : List Call :=
  [.onNew 1
      { clId := ascii "c1", symbol := ascii "MOCKUSDT", side := ascii "B", px := 500000
        qty := 100 },
    .onBook { bidPx := 499990, bidQty := 100, askPx := 499995, askQty := 40, mdSeq := 1 },
    .onBook { bidPx := 499990, bidQty := 100, askPx := 499995, askQty := 100, mdSeq := 2 },
    .onCancel 1 { clId := ascii "c1" },
    .endSession 1]

theorem run_orderLife_filledLife :
    IsLifetime 1 [] filledLife ∧
      (lifeEvents (keyTrace ⟨1, ascii "c1"⟩ (run specConfig filledLife).2)).length = 3 ∧
      ∃ n, execIds (run specConfig filledLife).2 = List.range' 1 n ∧
        (run specConfig filledLife).1.nextExecId = n + 1 :=
  have hlife : IsLifetime 1 [] filledLife := ⟨Or.inl rfl, by decide⟩
  ⟨hlife, by decide +kernel, (run_orderLife specConfig [] filledLife ⟨1, ascii "c1"⟩ hlife).2.2⟩

end OrderEngine

end MarketMaker
