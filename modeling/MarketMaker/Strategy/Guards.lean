import MarketMaker.Strategy.Sweep

/-!
# What passes the guards of the strategy

The strategy stops on an envelope out of sequence, on a foreign symbol and on an `md_seq` that goes
back. A message that is next in line passes these guards (`Heeds`): the strategy counts it and does
not stop. What it then decides leaves the guards alone (`Unguarded`), and the timer announces a
stale feed or nothing.
-/

namespace MarketMaker

/-- The reasons of the stops among some commands. -/
def stopsIn (cmds : List Cmd) : List Bytes :=
  cmds.filterMap fun
    | .stopQuoting reason => some reason
    | .send _ => none

theorem stopsIn_append (cmds cmds' : List Cmd) :
    stopsIn (cmds ++ cmds') = stopsIn cmds ++ stopsIn cmds' :=
  List.filterMap_append

namespace Strategy

variable {cfg : StrategyConfig} {st st' : Strategy}

/-! ## Decisions -/

/-- What the guards read is as before, and there is no stop. -/
structure Unguarded (st : Strategy) (r : Strategy × List Cmd) : Prop where
  epoch : r.1.epoch = st.epoch
  stopped : r.1.stopped = st.stopped
  swept : r.1.swept = st.swept
  inSeq : r.1.inSeq = st.inSeq
  mdSeq : r.1.mdSeq = st.mdSeq
  stops : stopsIn r.2 = []

namespace Unguarded

theorem silent (st : Strategy) : Unguarded st (st, []) := ⟨rfl, rfl, rfl, rfl, rfl, rfl⟩

theorem trans {r r' : Strategy × List Cmd} (h : Unguarded st r) (h' : Unguarded r.1 r') :
    Unguarded st (r'.1, r.2 ++ r'.2) where
  epoch := h'.epoch.trans h.epoch
  stopped := h'.stopped.trans h.stopped
  swept := h'.swept.trans h.swept
  inSeq := h'.inSeq.trans h.inSeq
  mdSeq := h'.mdSeq.trans h.mdSeq
  stops := by rw [stopsIn_append, h.stops, h'.stops]; rfl

end Unguarded

theorem unguarded_cancel (st : Strategy) (order : ClientOrder) :
    Unguarded st ((st.cancel order).1, [(st.cancel order).2]) := ⟨rfl, rfl, rfl, rfl, rfl, rfl⟩

theorem unguarded_new (cfg : StrategyConfig) (st : Strategy) (side : Side) (px : ℤ) (mdSeq : ℕ) :
    Unguarded st ((st.new cfg side px mdSeq).1, [(st.new cfg side px mdSeq).2]) :=
  ⟨rfl, rfl, rfl, rfl, rfl, rfl⟩

theorem unguarded_quoteUnbarred (cfg : StrategyConfig) (st : Strategy) (side : Side)
    (desiredPx askPx bidPx : ℤ) (mdSeq : ℕ) :
    Unguarded st (st.quoteUnbarred cfg side desiredPx askPx bidPx mdSeq) := by
  unfold quoteUnbarred
  split_ifs
  · exact .silent st
  · exact .silent st
  · cases st.currentOrder side with
    | none => exact unguarded_new cfg st side desiredPx mdSeq
    | some order =>
      dsimp only
      split_ifs
      · exact .silent st
      · exact .silent st
      · exact (unguarded_cancel st order).trans (unguarded_new cfg _ side desiredPx mdSeq)

theorem unguarded_quote (cfg : StrategyConfig) (st : Strategy) (side : Side)
    (desiredPx askPx bidPx : ℤ) (mdSeq : ℕ) :
    Unguarded st (st.quote cfg side desiredPx askPx bidPx mdSeq) := by
  unfold quote
  cases st.rejectedPx side with
  | none => exact unguarded_quoteUnbarred cfg st side desiredPx askPx bidPx mdSeq
  | some px =>
    dsimp only
    split_ifs
    · exact .silent st
    · -- lifting the bar is no business of the guards
      obtain ⟨hepoch, hstopped, hswept, hinSeq, hmdSeq, hstops⟩ := unguarded_quoteUnbarred cfg
        { st with rejectedPx := Function.update st.rejectedPx side none } side desiredPx askPx bidPx
          mdSeq
      exact ⟨hepoch, hstopped, hswept, hinSeq, hmdSeq, hstops⟩

theorem unguarded_reconsider (cfg : StrategyConfig) (st : Strategy) (side : Side) :
    Unguarded st (st.reconsider cfg side) := by
  unfold reconsider
  cases st.bidPx with
  | none => exact .silent st
  | some bidPx =>
    cases st.askPx with
    | none => exact .silent st
    | some askPx => exact unguarded_quote cfg st side _ askPx bidPx st.mdSeq

theorem unguarded_applyReport (cfg : StrategyConfig) (st : Strategy) (order : ClientOrder)
    (msg : OutMsg) : Unguarded st (st.applyReport cfg order msg) := by
  have hretired : ∀ (st' : Strategy), Unguarded st' (st'.retire order, []) := fun _ =>
    ⟨rfl, rfl, rfl, rfl, rfl, rfl⟩
  cases msg with
  | tob _ => exact .silent st
  | cancelAck _ => exact hretired st
  | orderAck _ =>
    rw [applyReport]
    split_ifs
    · obtain ⟨hepoch, hstopped, hswept, hinSeq, hmdSeq, hstops⟩ :=
        unguarded_reconsider cfg (st.setState order.clId .live) (sideOf order.clId)
      exact ⟨hepoch, hstopped, hswept, hinSeq, hmdSeq, hstops⟩
    · exact .silent st
  | fill m =>
    rw [applyReport]
    split_ifs
    · exact hretired st
    · exact .silent st
  | reject _ =>
    rw [applyReport]
    split_ifs
    · exact ⟨rfl, rfl, rfl, rfl, rfl, rfl⟩
    · exact hretired st

/-! ## Messages -/

/-- A message is counted and does not stop the strategy. -/
structure Heeds (st : Strategy) (mdSeq : ℕ) (r : Strategy × List Cmd) : Prop where
  epoch : r.1.epoch = st.epoch
  stopped : r.1.stopped = st.stopped
  swept : r.1.swept = st.swept
  inSeq : r.1.inSeq = st.inSeq + 1
  mdSeq : r.1.mdSeq = mdSeq
  stops : stopsIn r.2 = []

theorem advanceSeq_next {seq : ℕ} (h : seq = st.inSeq + 1) :
    st.advanceSeq seq = ({ st with inSeq := st.inSeq + 1 }, none) := by
  rw [advanceSeq]
  dsimp only
  rw [if_neg (not_not.mpr h), h]

/-- A tick in sequence, of a book that is not older than the last. -/
theorem heeds_onTob {tob : Tob} (hrun : st.stopped = false) (hepoch : tob.epoch = st.epoch)
    (hseq : tob.seq = st.inSeq + 1) (hsymbol : tob.symbol = cfg.symbol) (hmd : st.mdSeq ≤ tob.mdSeq)
    (nowNs : ℤ) : Heeds st tob.mdSeq (st.onTob cfg tob nowNs) := by
  have hinside : st.admitTob cfg tob = ({ st with inSeq := st.inSeq + 1 }, none) := by
    rw [admitTob, if_neg (by rw [hrun]; exact Bool.false_ne_true), if_neg (not_not.mpr hepoch),
      advanceSeq_next hseq]
    dsimp only
    rw [if_neg (not_not.mpr hsymbol)]
  unfold onTob
  rw [hinside]
  dsimp only
  split_ifs with hback hsame
  · exact absurd hback (not_lt.mpr hmd)
  · exact ⟨rfl, rfl, rfl, rfl, hsame.symm, rfl⟩
  all_goals
    -- both sides quote
    generalize hmoved : ({ st with
      epoch := _, conflatedSeen := _, orders := _, current := _, nextCl := _, rejectedPx := _
      outSeq := _, inSeq := _, mdSeq := _, lastTobNs := _, bidPx := _, askPx := _, stopped := _
      swept := _ } : Strategy) = moved
    have hbid := unguarded_quote cfg moved .bid tob.bidPx tob.askPx tob.bidPx tob.mdSeq
    have hboth := hbid.trans (unguarded_quote cfg _ .ask tob.askPx tob.askPx tob.bidPx tob.mdSeq)
    rw [← hmoved] at hboth ⊢
    exact ⟨hboth.epoch, hboth.stopped, hboth.swept, hboth.inSeq, hboth.mdSeq, hboth.stops⟩

/-- A report in sequence. -/
theorem heeds_onOrderReport (cfg : StrategyConfig) {msg : OutMsg} (hrun : st.stopped = false)
    (hepoch : msg.epoch = st.epoch) (hseq : msg.seq = st.inSeq + 1) :
    Heeds st st.mdSeq (st.onOrderReport cfg msg) := by
  have hguard : ¬(st.stopped = true ∨ msg.epoch ≠ st.epoch) := by
    rintro (hstopped | hother)
    · rw [hrun] at hstopped
      cases hstopped
    · exact hother hepoch
  rw [onOrderReport, if_neg hguard, advanceSeq_next hseq]
  dsimp only
  cases msg.clId.bind ({ st with inSeq := st.inSeq + 1 } : Strategy).getOrder with
  | none => exact ⟨rfl, rfl, rfl, rfl, rfl, rfl⟩
  | some order =>
    obtain ⟨hepoch, hstopped, hswept, hinSeq, hmdSeq, hstops⟩ :=
      unguarded_applyReport cfg { st with inSeq := st.inSeq + 1 } order msg
    exact ⟨hepoch, hstopped, hswept, hinSeq, hmdSeq, hstops⟩

/-- A strategy that has stopped hears nothing. -/
theorem onReport_of_stopped (cfg : StrategyConfig) (h : st.stopped = true) (msg : OutMsg)
    (nowNs : ℤ) :
    st.onReport cfg msg nowNs = (st, []) := by
  have hreport : st.onOrderReport cfg msg = (st, []) := by
    rw [onOrderReport, if_pos (Or.inl h)]
  cases msg with
  | tob tob =>
    show st.onTob cfg tob nowNs = (st, [])
    unfold onTob
    rw [admitTob, if_pos h]
  | _ => exact hreport

/-! ## The timer -/

/-- The timer does nothing, or sweeps: it stops the strategy, and says so unless it has stopped. -/
theorem onTimer_guards (cfg : StrategyConfig) (st : Strategy) (nowNs : ℤ) :
    st.onTimer cfg nowNs = (st, []) ∨
      (st.onTimer cfg nowNs).1.stopped = true ∧ (st.onTimer cfg nowNs).1.swept = true ∧
        (st.onTimer cfg nowNs).1.epoch = st.epoch ∧ (st.onTimer cfg nowNs).1.inSeq = st.inSeq ∧
        (st.onTimer cfg nowNs).1.mdSeq = st.mdSeq ∧
        ∀ reason ∈ stopsIn (st.onTimer cfg nowNs).2, ascii "stale feed" <+: reason := by
  have hcancels : ∀ (st : Strategy) (l : List ClientOrder), Unguarded st (st.cancelAll l) := by
    intro st l
    induction l generalizing st with
    | nil => exact .silent st
    | cons order l ih => exact (unguarded_cancel st order).trans (ih _)
  unfold onTimer
  cases hlast : st.lastTobNs with
  | none => exact Or.inl rfl
  | some last =>
    dsimp only
    split_ifs
    · exact Or.inl rfl
    · exact Or.inl rfl
    all_goals
      right
      have hall := hcancels { st with stopped := true, swept := true } st.resting
      rw [hlast] at hall
      refine ⟨hall.stopped, hall.swept, hall.epoch, hall.inSeq, hall.mdSeq, ?_⟩
      rw [stopsIn_append, hall.stops, List.append_nil]
    · exact fun reason hreason => by cases hreason
    · intro reason hreason
      have hhead : ascii "stale feed" <+: ascii "stale feed: " := ⟨ascii ": ", by decide +kernel⟩
      rw [List.mem_singleton.mp hreason, List.append_assoc, List.append_assoc]
      exact hhead.trans (List.prefix_append _ _)

end Strategy

end MarketMaker
