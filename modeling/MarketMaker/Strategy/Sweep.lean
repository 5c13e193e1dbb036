import MarketMaker.Strategy.Environment

/-!
# The stale sweep

The strategy keeps three latches apart: when the last book arrived, whether quoting has stopped, and
whether the sweep has run. `Timed` is the strategy beside an observer that only notes when a timer
call finds the feed stale for the first time since `on_connect`. Whatever the callbacks and their
messages, that call pulls every order that rests, and nothing is sent after it.
-/

namespace MarketMaker

/-- The strategy, and whether its sweep has fired since the last `on_connect`. -/
structure Timed where
  strategy : Strategy
  fired : Bool := false

namespace Strategy

/-- The age of the last book exceeds the limit. -/
def Stale (cfg : StrategyConfig) (st : Strategy) (nowNs : ℤ) : Prop :=
  ∃ last, st.lastTobNs = some last ∧ cfg.staleNs < nowNs - last

instance (cfg : StrategyConfig) (st : Strategy) (nowNs : ℤ) : Decidable (st.Stale cfg nowNs) :=
  match h : st.lastTobNs with
  | none => .isFalse fun ⟨last, hlast, _⟩ => by rw [h] at hlast; cases hlast
  | some last =>
    if hage : cfg.staleNs < nowNs - last then .isTrue ⟨last, h, hage⟩
    else .isFalse fun ⟨last', hlast, hage'⟩ => by
      rw [h] at hlast
      cases hlast
      exact hage hage'

/-- What the call that fires the sweep does. -/
structure Sweeps (st : Strategy) (r : Strategy × List Cmd) : Prop where
  /-- Each order that is not being cancelled is cancelled once, and no other one. -/
  once : ∀ o ∈ st.orders,
    (cancelIds r.2).count o.clId = if o.state = .pendingCancel then 0 else 1
  only : ∀ clId ∈ cancelIds r.2, ∃ o ∈ st.orders, o.clId = clId
  quiet : newIds r.2 = []
  cancelling : ∀ o ∈ r.1.orders, o.state = .pendingCancel
  kept : r.1.orders.map ClientOrder.clId = st.orders.map ClientOrder.clId
  /-- A stop is announced exactly if there was none before. -/
  announced : Stops r.2 ↔ st.stopped = false

end Strategy

namespace Timed

variable (cfg : StrategyConfig)

/-- A callback, observed. -/
def step (t : Timed) (call : StrategyCall) : Timed × List Cmd :=
  let r := t.strategy.call cfg call
  let fired := match call with
    | .onConnect _ => false
    | .onTimer nowNs => t.fired || decide (t.strategy.Stale cfg nowNs)
    | _ => t.fired
  ({ strategy := r.1, fired }, r.2)

/-- A run of callbacks on a strategy that has just been constructed. -/
abbrev run (epoch : ℕ) (calls : List StrategyCall) : Timed × List (StrategyCall × List Cmd) :=
  Mealy.run (step cfg) { strategy := { epoch } } calls

/-- The rule of the sweep. -/
structure SweepRule (t : Timed) : Prop where
  /-- As long as an order rests, the age of the last book is known. -/
  origin : (∃ o ∈ t.strategy.orders, o.state ≠ .pendingCancel) → t.strategy.lastTobNs ≠ none
  sweeps : t.fired = false → ∀ nowNs, t.strategy.Stale cfg nowNs →
    t.strategy.Sweeps (t.strategy.onTimer cfg nowNs)
  /-- After the sweep only `on_disconnect` says something. -/
  silent : t.fired = true → ∀ call, (t.step cfg call).2 =
    match call with
    | .onDisconnect => [.stopQuoting (ascii "disconnect")]
    | _ => []

end Timed

namespace Strategy

variable {cfg : StrategyConfig} {st : Strategy}

/-! ## What leaves the clock alone -/

/-- The latches of the sweep are the same, and no order appears in an empty map. -/
structure SameClock (st st' : Strategy) : Prop where
  lastTobNs : st'.lastTobNs = st.lastTobNs
  swept : st'.swept = st.swept

theorem sameClock_quoteUnbarred (cfg : StrategyConfig) (st : Strategy) (side : Side)
    (desiredPx askPx bidPx : ℤ) (mdSeq : ℕ) :
    SameClock st (st.quoteUnbarred cfg side desiredPx askPx bidPx mdSeq).1 := by
  unfold quoteUnbarred
  split_ifs
  · exact ⟨rfl, rfl⟩
  · exact ⟨rfl, rfl⟩
  · cases st.currentOrder side with
    | none => exact ⟨rfl, rfl⟩
    | some order =>
      dsimp only
      split_ifs <;> exact ⟨rfl, rfl⟩

theorem sameClock_quote (st : Strategy) (cfg : StrategyConfig) (side : Side)
    (desiredPx askPx bidPx : ℤ) (mdSeq : ℕ) :
    SameClock st (st.quote cfg side desiredPx askPx bidPx mdSeq).1 := by
  unfold quote
  cases st.rejectedPx side with
  | none => exact sameClock_quoteUnbarred cfg st side desiredPx askPx bidPx mdSeq
  | some px =>
    dsimp only
    split_ifs
    · exact ⟨rfl, rfl⟩
    · obtain ⟨hclock, hswept⟩ := sameClock_quoteUnbarred cfg
        { st with rejectedPx := Function.update st.rejectedPx side none } side desiredPx askPx bidPx
        mdSeq
      exact ⟨hclock, hswept⟩

theorem sameClock_applyReport (cfg : StrategyConfig) (st : Strategy) (order : ClientOrder)
    (msg : OutMsg) : SameClock st (st.applyReport cfg order msg).1 := by
  cases msg with
  | tob _ => exact ⟨rfl, rfl⟩
  | orderAck _ =>
    simp only [applyReport]
    split_ifs
    · unfold reconsider
      split
      · next bidPx askPx _ _ =>
        have hquote := fun desired => sameClock_quote (st.setState order.clId .live) cfg
          (sideOf order.clId) desired askPx bidPx st.mdSeq
        exact ⟨(hquote _).1, (hquote _).2⟩
      · exact ⟨rfl, rfl⟩
    · exact ⟨rfl, rfl⟩
  | cancelAck _ => exact ⟨rfl, rfl⟩
  | fill _ =>
    simp only [applyReport]
    split_ifs <;> exact ⟨rfl, rfl⟩
  | reject _ =>
    simp only [applyReport]
    split_ifs <;> exact ⟨rfl, rfl⟩

/-- A report leaves the clock alone, and an empty map stays empty. -/
theorem sameClock_onOrderReport (cfg : StrategyConfig) (st : Strategy) (msg : OutMsg) :
    SameClock st (st.onOrderReport cfg msg).1 ∧
      (st.orders = [] → (st.onOrderReport cfg msg).1.orders = []) := by
  unfold onOrderReport
  by_cases hguard : st.stopped = true ∨ msg.epoch ≠ st.epoch
  · rw [if_pos hguard]
    exact ⟨⟨rfl, rfl⟩, id⟩
  rw [if_neg hguard]
  by_cases hseq : msg.seq = st.inSeq + 1
  · have hadvance : st.advanceSeq msg.seq = ({ st with inSeq := msg.seq }, none) :=
      if_neg (not_not.mpr hseq)
    rw [hadvance]
    dsimp only
    split
    · exact ⟨⟨rfl, rfl⟩, id⟩
    · next order hfind =>
      obtain ⟨hclock, hswept⟩ := sameClock_applyReport cfg { st with inSeq := msg.seq } order msg
      refine ⟨⟨hclock, hswept⟩, fun hempty => ?_⟩
      -- an order was found, so the map was not empty
      obtain ⟨clId, -, hget⟩ := Option.bind_eq_some_iff.mp hfind
      have hmem := (mem_of_getOrder hget).1
      rw [hempty] at hmem
      cases hmem
  · have hadvance : st.advanceSeq msg.seq = (_, some _) := if_pos hseq
    rw [hadvance]
    exact ⟨⟨rfl, rfl⟩, id⟩

theorem sameClock_cancelAll (st : Strategy) (l : List ClientOrder) :
    SameClock st (st.cancelAll l).1 := by
  induction l generalizing st with
  | nil => exact ⟨rfl, rfl⟩
  | cons order l ih =>
    obtain ⟨hclock, hswept⟩ := ih (st.cancel order).1
    exact ⟨hclock, hswept⟩

/-! ## The timer -/

/-- A timer call that finds the feed fresh, or the sweep done, does nothing. -/
theorem onTimer_idle {nowNs : ℤ} (h : ¬st.Stale cfg nowNs ∨ st.swept = true) :
    st.onTimer cfg nowNs = (st, []) := by
  unfold onTimer
  split
  · rfl
  · next last hlast =>
    by_cases hswept : st.swept = true
    · rw [if_pos hswept]
    · rw [if_neg hswept]
      apply if_pos
      by_contra hage
      exact h.elim (fun hfresh => hfresh ⟨last, hlast, not_le.mp hage⟩) hswept

/-- Otherwise it stops the strategy, with the stop announced if it is the first one, and sweeps. -/
theorem onTimer_stale {nowNs : ℤ} (hswept : st.swept = false) (h : st.Stale cfg nowNs) :
    ∃ announced, (Stops announced ↔ st.stopped = false) ∧
      newIds announced = [] ∧ cancelIds announced = [] ∧
      st.onTimer cfg nowNs =
        let r := ({ st with stopped := true, swept := true } : Strategy).cancelAll st.resting
        (r.1, announced ++ r.2) := by
  obtain ⟨last, hlast, hage⟩ := h
  unfold onTimer
  rw [hlast]
  dsimp only
  rw [if_neg (by rw [hswept]; exact Bool.false_ne_true), if_neg (not_le.mpr hage)]
  refine ⟨_, ?_, ?_, ?_, rfl⟩
  · by_cases hstopped : st.stopped = true
    · rw [if_pos hstopped, hstopped]
      simp [Stops]
    · rw [if_neg hstopped]
      simp [Stops, hstopped]
  · split_ifs <;> rfl
  · split_ifs <;> rfl

theorem stops_append {cmds cmds' : List Cmd} :
    Stops (cmds ++ cmds') ↔ Stops cmds ∨ Stops cmds' := by
  simp [Stops, exists_or]

/-- The cancels of a list of orders, and nothing else. -/
theorem cancelAll_cmds (st : Strategy) (l : List ClientOrder) :
    cancelIds (st.cancelAll l).2 = l.map ClientOrder.clId ∧ newIds (st.cancelAll l).2 = [] ∧
      ¬Stops (st.cancelAll l).2 := by
  induction l generalizing st with
  | nil => exact ⟨rfl, rfl, fun ⟨_, hmem⟩ => absurd hmem List.not_mem_nil⟩
  | cons order l ih =>
    obtain ⟨hcancels, hnews, hstops⟩ := ih (st.cancel order).1
    refine ⟨congrArg (order.clId :: ·) hcancels, hnews, fun ⟨reason, hmem⟩ => ?_⟩
    rcases List.mem_cons.mp hmem with heq | hmem
    · cases heq
    · exact hstops ⟨reason, hmem⟩

theorem mem_resting {o : ClientOrder} :
    o ∈ st.resting ↔ o ∈ st.orders ∧ o.state ≠ .pendingCancel := by
  rw [resting, List.mem_filter]
  apply and_congr_right
  intro _
  cases o.state <;> decide

theorem sweeps_onTimer {nowNs : ℤ} (hnodup : (st.orders.map ClientOrder.clId).Nodup)
    (hswept : st.swept = false) (h : st.Stale cfg nowNs) :
    st.Sweeps (st.onTimer cfg nowNs) := by
  obtain ⟨announced, hannounced, hnone, hnone', heq⟩ := onTimer_stale hswept h
  obtain ⟨hcancels, hnews, hstops⟩ :=
    cancelAll_cmds { st with stopped := true, swept := true } st.resting
  have horders := orders_sweep st
  have hids : cancelIds (st.onTimer cfg nowNs).2 = st.resting.map ClientOrder.clId := by
    rw [heq, cancelIds_append, hnone', List.nil_append, hcancels]
  have hdistinct : (st.resting.map ClientOrder.clId).Nodup :=
    hnodup.sublist (List.filter_sublist.map _)
  constructor
  case once =>
    intro o ho
    rw [hids]
    split_ifs with hstate
    · -- an order with the id that rests would be this one
      apply List.count_eq_zero_of_not_mem
      intro hmem
      obtain ⟨o', ho', hid⟩ := List.mem_map.mp hmem
      obtain ⟨hmem', hne⟩ := mem_resting.mp ho'
      rw [List.inj_on_of_nodup_map hnodup hmem' ho hid] at hne
      exact hne hstate
    · exact List.count_eq_one_of_mem hdistinct (List.mem_map_of_mem (mem_resting.mpr ⟨ho, hstate⟩))
  case only =>
    intro clId hmem
    rw [hids] at hmem
    obtain ⟨o, ho, hid⟩ := List.mem_map.mp hmem
    exact ⟨o, (mem_resting.mp ho).1, hid⟩
  case quiet => rw [heq, newIds_append, hnone, hnews, List.nil_append]
  case cancelling =>
    intro o ho
    rw [heq] at ho
    dsimp only at ho
    rw [horders] at ho
    obtain ⟨o', -, rfl⟩ := List.mem_map.mp ho
    rfl
  case kept =>
    rw [heq]
    dsimp only
    rw [horders, List.map_map]
    rfl
  case announced =>
    rw [heq, ← hannounced]
    exact stops_append.trans (or_iff_left hstops)

end Strategy

/-! ## Runs -/

namespace Timed

variable {cfg : StrategyConfig}

/-- What the latches say of each other, between callbacks. -/
structure Latched (t : Timed) : Prop where
  swept : t.strategy.swept = t.fired
  stopped : t.fired = true → t.strategy.stopped = true
  origin : t.strategy.lastTobNs = none → t.strategy.orders = []

/-- A callback that neither connects nor fires the sweep. -/
theorem Latched.keep {t : Timed} (h : t.Latched) {st : Strategy}
    (hswept : st.swept = t.strategy.swept)
    (hstopped : t.strategy.stopped = true → st.stopped = true)
    (horigin : t.strategy.lastTobNs ≠ none ∨ t.strategy.orders = [] →
      st.lastTobNs ≠ none ∨ st.orders = []) : Latched ⟨st, t.fired⟩ where
  swept := hswept.trans h.swept
  stopped hfired := hstopped (h.stopped hfired)
  origin hnone := (horigin (by
    by_cases hclock : t.strategy.lastTobNs = none
    · exact Or.inr (h.origin hclock)
    · exact Or.inl hclock)).resolve_left (not_not.mpr hnone)

theorem Latched.onTob {t : Timed} (h : t.Latched) (cfg : StrategyConfig) (tob : Tob) (nowNs : ℤ) :
    Latched ⟨(t.strategy.onTob cfg tob nowNs).1, t.fired⟩ := by
  obtain ⟨-, inSeq, lastTobNs, hclock, heq⟩ | ⟨-, inSeq, reason, heq⟩ | ⟨-, conflatedSeen, heq⟩ :=
    Strategy.onTob_cases cfg t.strategy tob nowNs
  · rw [heq]
    exact h.keep rfl id (Or.imp_left fun hset hnone => hset (hclock hnone))
  · rw [heq]
    exact h.keep rfl (fun _ => rfl) id
  · -- the book that is quoted on sets the clock
    rw [heq]
    dsimp only
    let moved : Strategy :=
      { t.strategy with
        inSeq := tob.seq, lastTobNs := some nowNs, conflatedSeen, mdSeq := tob.mdSeq
        bidPx := some tob.bidPx, askPx := some tob.askPx }
    have hbid := moved.sameClock_quote cfg .bid (tob.pxOn .bid) tob.askPx tob.bidPx tob.mdSeq
    have hask := Strategy.sameClock_quote
      (moved.quote cfg .bid (tob.pxOn .bid) tob.askPx tob.bidPx tob.mdSeq).1 cfg .ask
        (tob.pxOn .ask)
      tob.askPx tob.bidPx tob.mdSeq
    refine h.keep (hask.swept.trans hbid.swept) (fun hstopped => ?_) fun _ => Or.inl ?_
    · rw [(Strategy.quote_frame ..).1, (Strategy.quote_frame ..).1]
      exact hstopped
    · rw [hask.lastTobNs, hbid.lastTobNs]
      exact Option.some_ne_none nowNs

theorem Latched.onOrderReport {t : Timed} (h : t.Latched) (cfg : StrategyConfig) (msg : OutMsg) :
    Latched ⟨(t.strategy.onOrderReport cfg msg).1, t.fired⟩ := by
  obtain ⟨hclock, hempty⟩ := Strategy.sameClock_onOrderReport cfg t.strategy msg
  refine h.keep hclock.swept (fun hstopped => ?_) (Or.imp (fun hset => ?_) hempty)
  · rw [Strategy.onOrderReport, if_pos (Or.inl hstopped)]
    exact hstopped
  · rwa [hclock.lastTobNs]

theorem Latched.onTimer {t : Timed} (h : t.Latched) (cfg : StrategyConfig) (nowNs : ℤ) :
    Latched ⟨(t.strategy.onTimer cfg nowNs).1,
      t.fired || decide (t.strategy.Stale cfg nowNs)⟩ := by
  by_cases hidle : ¬t.strategy.Stale cfg nowNs ∨ t.strategy.swept = true
  · have hfired : (t.fired || decide (t.strategy.Stale cfg nowNs)) = t.fired := by
      rcases hidle with hfresh | hswept
      · rw [decide_eq_false hfresh, Bool.or_false]
      · rw [← h.swept, hswept, Bool.true_or]
    rw [Strategy.onTimer_idle hidle, hfired]
    exact h
  · obtain ⟨hstale, hswept⟩ := not_or.mp hidle
    have hstale := not_not.mp hstale
    obtain ⟨announced, -, -, -, heq⟩ :=
      Strategy.onTimer_stale (Bool.eq_false_iff.mpr hswept) hstale
    let latched : Strategy := { t.strategy with stopped := true, swept := true }
    have hclock := latched.sameClock_cancelAll t.strategy.resting
    rw [heq, decide_eq_true hstale, Bool.or_true]
    refine ⟨hclock.swept, fun _ => (Strategy.cancelAll_frame ..).1, fun hnone => ?_⟩
    -- a stale feed has a last book
    obtain ⟨last, hlast, -⟩ := hstale
    have hsome := hclock.lastTobNs.symm.trans hnone
    change t.strategy.lastTobNs = none at hsome
    rw [hlast] at hsome
    cases hsome

theorem Latched.step {t : Timed} (h : t.Latched) (call : StrategyCall) :
    (t.step cfg call).1.Latched := by
  cases call with
  | onConnect epoch => exact ⟨rfl, fun hfired => (by contradiction), fun _ => rfl⟩
  | onTob tob nowNs => exact h.onTob cfg tob nowNs
  | onTimer nowNs => exact h.onTimer cfg nowNs
  | onDisconnect => exact h.keep rfl (fun _ => rfl) fun _ => Or.inr rfl
  | onReport msg nowNs =>
    cases msg with
    | tob tob => exact h.onTob cfg tob nowNs
    | orderAck m => exact h.onOrderReport cfg (.orderAck m)
    | cancelAck m => exact h.onOrderReport cfg (.cancelAck m)
    | fill m => exact h.onOrderReport cfg (.fill m)
    | reject m => exact h.onOrderReport cfg (.reject m)

theorem latched_run (cfg : StrategyConfig) (epoch : ℕ) (calls : List StrategyCall) :
    (run cfg epoch calls).1.Latched :=
  Mealy.run_induct (step cfg) (P := fun t _ => t.Latched) (s := { strategy := { epoch } })
    ⟨rfl, fun hfired => (by contradiction), fun _ => rfl⟩ (fun _ _ call h => h.step call) calls

/-- The strategy goes through the same states whoever watches it. -/
theorem strategy_run (cfg : StrategyConfig) (epoch : ℕ) (calls : List StrategyCall) :
    (run cfg epoch calls).1.strategy = (Watched.run cfg epoch calls).1.strategy := by
  induction calls using List.reverseRecOn with
  | nil => rfl
  | append_singleton calls call ih =>
    rw [run, Watched.run, Mealy.run_concat, Mealy.run_concat]
    change Prod.fst (Strategy.call cfg _ call) = Prod.fst (Strategy.call cfg _ call)
    rw [ih]

/-- A strategy that has stopped and swept says nothing, except that it is disconnected. -/
theorem Latched.silent {t : Timed} (h : t.Latched) (hfired : t.fired = true)
    (call : StrategyCall) :
    (t.step cfg call).2 = match call with
      | .onDisconnect => [.stopQuoting (ascii "disconnect")]
      | _ => [] := by
  have hstopped := h.stopped hfired
  have htob : ∀ tob nowNs, (t.strategy.onTob cfg tob nowNs).2 = [] := by
    intro tob nowNs
    simp only [Strategy.onTob, Strategy.admitTob, hstopped, if_true]
  have hreport : ∀ msg, (t.strategy.onOrderReport cfg msg).2 = [] := by
    intro msg
    rw [Strategy.onOrderReport, if_pos (Or.inl hstopped)]
  cases call with
  | onConnect epoch => rfl
  | onTob tob nowNs => exact htob tob nowNs
  | onTimer nowNs =>
    exact congrArg Prod.snd (@Strategy.onTimer_idle cfg _ _ (Or.inr (h.swept.trans hfired)))
  | onDisconnect => rfl
  | onReport msg nowNs =>
    cases msg with
    | tob tob => exact htob tob nowNs
    | orderAck m => exact hreport (.orderAck m)
    | cancelAck m => exact hreport (.cancelAck m)
    | fill m => exact hreport (.fill m)
    | reject m => exact hreport (.reject m)

/-- Whatever the callbacks and their messages, the sweep follows its rule after each of them. -/
theorem run_sweepRule (cfg : StrategyConfig) (epoch : ℕ) (calls : List StrategyCall) :
    SweepRule cfg (run cfg epoch calls).1 := by
  have hlatched := latched_run cfg epoch calls
  constructor
  case origin =>
    rintro ⟨o, ho, -⟩ hnone
    rw [hlatched.origin hnone] at ho
    cases ho
  case sweeps =>
    intro hfired nowNs hstale
    refine Strategy.sweeps_onTimer ?_ (hlatched.swept.trans hfired) hstale
    rw [strategy_run]
    exact (Watched.good_run cfg epoch calls).settled.nodup
  case silent => exact hlatched.silent

end Timed

end MarketMaker
