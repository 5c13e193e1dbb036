import MarketMaker.Duplex.Agreement
import MarketMaker.Engine.Feed
import MarketMaker.Strategy.Guards

/-!
# A strategy that is never refused its own feed

Whatever the engine sends is next in line when it is delivered: the envelopes are numbered by
delivery, the books come in increasing order and the symbol is the instrument's. So the guards of
the strategy pass everything, and the only thing that stops it is a stale feed (`run_heedful`).
-/

namespace MarketMaker

namespace Duplex

variable {cfg : EngineConfig} {scfg : StrategyConfig} {s : ℕ} {x : Duplex}

/-- What is on its way is next in line. -/
structure Attentive (s : ℕ) (x : Duplex) : Prop where
  epoch : x.strategy.epoch = s
  heard : x.strategy.stopped = false → x.strategy.inSeq = x.inbound
  swept : x.strategy.stopped = true → x.strategy.swept = true
  sorted : (x.books.map Book.mdSeq).Pairwise (· < ·)
  ahead : ∀ book ∈ x.books, x.strategy.mdSeq ≤ book.mdSeq
  behind : x.engine.bookSeen = true →
    x.strategy.mdSeq ≤ x.engine.book.mdSeq ∧ ∀ book ∈ x.books, book.mdSeq ≤ x.engine.book.mdSeq
  unseen : x.engine.bookSeen = false → x.strategy.mdSeq = 0 ∧ x.books = []

theorem attentive_init (s : ℕ) (st : Strategy) : Attentive s (init s st) where
  epoch := rfl
  heard _ := rfl
  swept h := by cases h
  sorted := List.Pairwise.nil
  ahead _ h := by cases h
  behind h := by cases h
  unseen _ := ⟨rfl, rfl⟩

/-- The engine moves on, and its book stays. -/
theorem Attentive.engine (h : Attentive s x) {e : OrderEngine} (hbook : e.book = x.engine.book)
    (hseen : e.bookSeen = x.engine.bookSeen) (commands : List InMsg) (reports : List OutMsg) :
    Attentive s { x with engine := e, commands, reports } where
  epoch := h.epoch
  heard := h.heard
  swept := h.swept
  sorted := h.sorted
  ahead := h.ahead
  behind hs := hbook ▸ h.behind (hseen ▸ hs)
  unseen hs := h.unseen (hseen ▸ hs)

theorem Attentive.book (h : Attentive s x) (hinv : OrderEngine.Inv cfg x.engine) {book : Book}
    (hfresh : x.engine.isFresh book) :
    Attentive s { x.call cfg s (.onBook book) with books := x.books ++ [book] } := by
  obtain ⟨hinstalled, -⟩ := OrderEngine.onBook_of_fresh cfg hinv.indexed hfresh
  -- the new book is the newest of all
  have hnewest : x.strategy.mdSeq ≤ book.mdSeq ∧ ∀ b ∈ x.books, b.mdSeq < book.mdSeq := by
    cases hseen : x.engine.bookSeen with
    | false =>
      obtain ⟨hzero, hnone⟩ := h.unseen hseen
      rw [hzero, hnone]
      exact ⟨Nat.zero_le _, fun _ hb => by cases hb⟩
    | true =>
      obtain ⟨hstrategy, hbooks⟩ := h.behind hseen
      have hlt : x.engine.book.mdSeq < book.mdSeq := Nat.not_le.mp fun hle => hfresh ⟨hseen, hle⟩
      exact ⟨hstrategy.trans hlt.le, fun b hb => (hbooks b hb).trans_lt hlt⟩
  have hbook : (OrderEngine.step cfg x.engine (.onBook book)).1.book = book := hinstalled.book
  have hseen : (OrderEngine.step cfg x.engine (.onBook book)).1.bookSeen = true :=
    hinstalled.bookSeen
  refine ⟨h.epoch, h.heard, h.swept, ?_, ?_, fun _ => ?_, fun hs => ?_⟩
  · show ((x.books ++ [book]).map Book.mdSeq).Pairwise (· < ·)
    rw [List.map_append, List.pairwise_append]
    refine ⟨h.sorted, List.pairwise_singleton _ _, fun m hm n hn => ?_⟩
    obtain ⟨b, hb, rfl⟩ := List.mem_map.mp hm
    obtain ⟨b', hb', rfl⟩ := List.mem_map.mp hn
    rw [List.mem_singleton.mp hb']
    exact hnewest.2 b hb
  · intro b hb
    rcases List.mem_append.mp hb with hold | hnew
    · exact h.ahead b hold
    · rw [List.mem_singleton.mp hnew]
      exact hnewest.1
  · show _ ≤ (OrderEngine.step cfg x.engine (.onBook book)).1.book.mdSeq ∧
      ∀ b ∈ x.books ++ [book], b.mdSeq ≤ (OrderEngine.step cfg x.engine (.onBook book)).1.book.mdSeq
    rw [hbook]
    refine ⟨hnewest.1, fun b hb => ?_⟩
    rcases List.mem_append.mp hb with hold | hnew
    · exact (hnewest.2 b hold).le
    · exact (List.mem_singleton.mp hnew).symm ▸ le_rfl
  · rw [show ({ x.call cfg s (.onBook book) with
        books := x.books ++ [book] } : Duplex).engine.bookSeen
      = _ from hseen] at hs
    cases hs

/-- A call that is no book leaves the engine's book alone. -/
theorem Attentive.call (h : Attentive s x) {c : OrderEngine.Call} (hc : c.mdSeq? = none)
    (commands : List InMsg) :
    Attentive s (({ x with commands } : Duplex).call cfg s c) := by
  obtain ⟨hbook, hseen⟩ := OrderEngine.book_step_of_not_book cfg x.engine hc
  exact h.engine hbook hseen commands _

/-! ## Deliveries -/

/-- A delivery to a running strategy is heeded; a stopped one hears nothing. -/
theorem Attentive.deliver (h : Attentive s x) {msg : OutMsg} {nowNs : ℤ} {mdSeq : ℕ}
    (hheeds : x.strategy.stopped = false → Strategy.Heeds x.strategy mdSeq
      (x.strategy.onReport scfg (msg.stamp (x.inbound + 1) s) nowNs))
    {books : List Book} (hsorted : (books.map Book.mdSeq).Pairwise (· < ·))
    (hahead : ∀ book ∈ books, x.strategy.mdSeq ≤ book.mdSeq ∧ mdSeq ≤ book.mdSeq)
    (hsub : ∀ book ∈ books, book ∈ x.books)
    (hbehind : x.engine.bookSeen = true → mdSeq ≤ x.engine.book.mdSeq)
    (hunseen : x.engine.bookSeen = false → mdSeq = 0) (reports : List OutMsg) :
    Attentive s (({ x with books, reports } : Duplex).deliver scfg s msg nowNs) := by
  cases hrun : x.strategy.stopped with
  | true =>
    have hsilent : ({ x with books, reports } : Duplex).deliver scfg s msg nowNs =
        { x with books, reports, inbound := x.inbound + 1, commands := x.commands ++ [] } := by
      rw [Duplex.deliver, act, Strategy.onReport_of_stopped scfg hrun]
      rfl
    rw [hsilent]
    refine ⟨h.epoch, fun hrunning => ?_, h.swept, hsorted, fun b hb => (hahead b hb).1,
      fun hs => ⟨(h.behind hs).1, fun b hb => (h.behind hs).2 b (hsub b hb)⟩, fun hs => ?_⟩
    · rw [show x.strategy.stopped = false from hrunning] at hrun
      cases hrun
    · obtain ⟨hzero, hnone⟩ := h.unseen hs
      refine ⟨hzero, List.eq_nil_iff_forall_not_mem.mpr fun b hb => ?_⟩
      have hmem := hsub b hb
      rw [hnone] at hmem
      cases hmem
  | false =>
    obtain ⟨hepoch, hstopped, -, hinSeq, hmdSeq, -⟩ := hheeds hrun
    refine ⟨hepoch.trans h.epoch, fun _ => ?_, fun hs => ?_, hsorted, fun b hb => ?_, fun hs => ?_,
      fun hs => ?_⟩
    · exact hinSeq.trans (congrArg (· + 1) (h.heard hrun))
    · have hstill := (hstopped.trans hrun).symm.trans hs
      cases hstill
    · exact hmdSeq.le.trans (hahead b hb).2
    · exact ⟨hmdSeq.le.trans (hbehind hs), fun b hb => (h.behind hs).2 b (hsub b hb)⟩
    · refine ⟨hmdSeq.trans (hunseen hs), List.eq_nil_iff_forall_not_mem.mpr fun b hb => ?_⟩
      have hmem := hsub b hb
      rw [(h.unseen hs).2] at hmem
      cases hmem

/-- The next report is heeded. -/
theorem Attentive.heeds_report (h : Attentive s x) (scfg : StrategyConfig) {msg : OutMsg}
    (hmsg : msg.isTob = false) (hrun : x.strategy.stopped = false) (nowNs : ℤ) :
    Strategy.Heeds x.strategy x.strategy.mdSeq
      (x.strategy.onReport scfg (msg.stamp (x.inbound + 1) s) nowNs) := by
  have hreport : x.strategy.onReport scfg (msg.stamp (x.inbound + 1) s) nowNs =
      x.strategy.onOrderReport scfg (msg.stamp (x.inbound + 1) s) := by
    cases msg with
    | tob m => cases hmsg
    | _ => rfl
  have hstamps : (msg.stamp (x.inbound + 1) s).epoch = s ∧
      (msg.stamp (x.inbound + 1) s).seq = x.inbound + 1 := by
    cases msg <;> exact ⟨rfl, rfl⟩
  rw [hreport]
  refine Strategy.heeds_onOrderReport scfg hrun (hstamps.1.trans h.epoch.symm) ?_
  rw [hstamps.2, h.heard hrun]

/-- So is the tick of any book that is on its way. -/
theorem Attentive.heeds_tob (h : Attentive s x) (hsymbol : cfg.inst.symbol = scfg.symbol)
    {book : Book} (hbook : book ∈ x.books) (hrun : x.strategy.stopped = false) (nowNs : ℤ) :
    Strategy.Heeds x.strategy book.mdSeq
      (x.strategy.onReport scfg ((tobOf cfg book).stamp (x.inbound + 1) s) nowNs) := by
  let tob : Tob :=
    { seq := x.inbound + 1, epoch := s, mdSeq := book.mdSeq, symbol := cfg.inst.symbol
      bidPx := book.bidPx, bidQty := book.bidQty, askPx := book.askPx, askQty := book.askQty }
  have hseq : tob.seq = x.strategy.inSeq + 1 := congrArg (· + 1) (h.heard hrun).symm
  exact Strategy.heeds_onTob hrun h.epoch.symm hseq hsymbol (h.ahead book hbook) nowNs

/-- A report stops nothing: a strategy that has stopped does not hear it. -/
theorem Attentive.stops_report (h : Attentive s x) (scfg : StrategyConfig) {msg : OutMsg}
    (hmsg : msg.isTob = false) (nowNs : ℤ) :
    stopsIn (x.strategy.onReport scfg (msg.stamp (x.inbound + 1) s) nowNs).2 = [] := by
  cases hrun : x.strategy.stopped with
  | true =>
    rw [Strategy.onReport_of_stopped scfg hrun]
    rfl
  | false => exact (h.heeds_report scfg hmsg hrun nowNs).stops

theorem Attentive.stops_tob (h : Attentive s x) (hsymbol : cfg.inst.symbol = scfg.symbol)
    {book : Book} (hbook : book ∈ x.books) (nowNs : ℤ) :
    stopsIn (x.strategy.onReport scfg ((tobOf cfg book).stamp (x.inbound + 1) s) nowNs).2 = [] := by
  cases hrun : x.strategy.stopped with
  | true =>
    rw [Strategy.onReport_of_stopped scfg hrun]
    rfl
  | false => exact (h.heeds_tob hsymbol hbook hrun nowNs).stops

/-! ## Runs -/

/-- The reports on their way are no ticks. -/
theorem Good.isTob_eq_false (h : Good cfg s x) {msg : OutMsg} (hmsg : msg ∈ x.reports) :
    msg.isTob = false := by
  obtain ⟨p, hp⟩ := h.digested msg hmsg
  cases msg with
  | tob m => cases hp
  | _ => rfl

theorem Attentive.step (h : Attentive s x) (hgood : Good cfg s x)
    (hsymbol : cfg.inst.symbol = scfg.symbol) (ev : Event) :
    Attentive s (step cfg scfg s x ev).1 := by
  cases ev with
  | book book =>
    rw [Duplex.step]
    split_ifs with hfresh
    · exact h.book hgood.inv hfresh
    · exact h
  | other c =>
    rw [Duplex.step]
    split_ifs with hother
    · refine Attentive.call (x := x) h ?_ x.commands
      cases c with
      | onBook book => cases hother
      | _ => rfl
    · exact h
  | command =>
    rw [Duplex.step]
    cases x.commands with
    | nil => exact h
    | cons m rest =>
      refine Attentive.call (x := x) h ?_ rest
      cases m <;> rfl
  | report nowNs =>
    rw [Duplex.step]
    cases hreports : x.reports with
    | nil => exact h
    | cons m rest =>
      have hmsg : m.isTob = false := hgood.isTob_eq_false (hreports ▸ List.mem_cons_self)
      -- a report leaves the books where they are
      exact h.deliver (fun hrun => h.heeds_report scfg hmsg hrun nowNs) h.sorted
        (fun b hb => ⟨h.ahead b hb, h.ahead b hb⟩) (fun _ hb => hb) (fun hs => (h.behind hs).1)
        (fun hs => (h.unseen hs).1) rest
  | tob conflated nowNs =>
    rw [Duplex.step]
    cases hbooks : x.books.drop conflated with
    | nil => exact h
    | cons book rest =>
      -- conflation leaves the newest books, in the order in which they came
      have hsub : ∀ b ∈ book :: rest, b ∈ x.books := fun b hb =>
        List.mem_of_mem_drop (hbooks ▸ hb)
      have hsorted : ((book :: rest).map Book.mdSeq).Pairwise (· < ·) := by
        rw [← hbooks, List.map_drop]
        exact h.sorted.sublist (List.drop_sublist _ _)
      rw [List.map_cons, List.pairwise_cons] at hsorted
      have hmem := hsub book List.mem_cons_self
      -- the book that is delivered is older than those after it, which stay ahead
      refine h.deliver (fun hrun => h.heeds_tob hsymbol hmem hrun nowNs) hsorted.2 (fun b hb => ?_)
        (fun b hb => hsub b (List.mem_cons_of_mem _ hb)) (fun hs => (h.behind hs).2 book hmem)
        (fun hs => ?_) x.reports
      · exact ⟨h.ahead b (hsub b (List.mem_cons_of_mem _ hb)),
          (hsorted.1 b.mdSeq (List.mem_map_of_mem hb)).le⟩
      · rw [(h.unseen hs).2] at hmem
        cases hmem
  | timer nowNs =>
    rw [Duplex.step]
    rcases Strategy.onTimer_guards scfg x.strategy nowNs with
      hidle | ⟨hstopped, hswept, hepoch, -, hmdSeq, -⟩
    -- either nothing is due, or the feed is stale and the strategy sweeps and stops
    · have hsame : x.act (x.strategy.onTimer scfg nowNs) =
        { x with commands := x.commands ++ [] } := by
        rw [hidle]
        rfl
      rw [hsame]
      exact h.engine rfl rfl _ x.reports
    · refine ⟨hepoch.trans h.epoch, fun hrun => ?_, fun _ => hswept, h.sorted, fun b hb => ?_,
        fun hs => ?_, fun hs => ?_⟩
      · have hboth := hstopped.symm.trans hrun
        cases hboth
      · exact hmdSeq.le.trans (h.ahead b hb)
      · exact ⟨hmdSeq.le.trans (h.behind hs).1, (h.behind hs).2⟩
      · exact ⟨hmdSeq.trans (h.unseen hs).1, (h.unseen hs).2⟩

theorem attentive_run (hsymbol : cfg.inst.symbol = scfg.symbol) (s : ℕ) (st : Strategy)
    (events : List Event) : Attentive s (run cfg scfg s st events).1 := by
  have hboth : Good cfg s (run cfg scfg s st events).1 ∧ Attentive s (run cfg scfg s st events).1 :=
    Mealy.run_induct (Duplex.step cfg scfg s) (P := fun x _ => Good cfg s x ∧ Attentive s x)
      ⟨Good.init cfg s st, attentive_init s st⟩
      (fun _ _ ev h => ⟨h.1.step scfg ev, h.2.step h.1 hsymbol ev⟩) events
  exact hboth.2

/-- The report is no reject for a full book of its own, a reused id or an unknown one; given that
there is room for an order on each side. -/
def Civil (cfg : EngineConfig) (msg : OutMsg) : Prop :=
  2 ≤ cfg.inst.maxLiveOrders → ∀ rej, msg = .reject rej → ¬isAvoidable rej.code

/-- What an event adds to the reports in flight is civil. -/
theorem Good.civil_step (h : Good cfg s x) (scfg : StrategyConfig)
    (hcivil : ∀ msg ∈ x.reports, Civil cfg msg) (ev : Event) :
    ∀ msg ∈ (Duplex.step cfg scfg s x ev).1.reports, Civil cfg msg := by
  -- the answers to a command are a part of the step's output
  have hanswers : ∀ msg ∈ (Duplex.step cfg scfg s x ev).2, Civil cfg msg := by
    rintro msg hmsg hcap rej rfl
    exact h.answers scfg hcap ev hmsg
  cases ev with
  | book book =>
    rw [Duplex.step]
    split_ifs
    · intro msg hmsg
      rcases List.mem_append.mp hmsg with hold | hnew
      · exact hcivil msg hold
      · -- a book draws fills
        obtain ⟨r, hr, rfl⟩ := List.mem_map.mp hnew
        obtain ⟨⟨fill, hfill⟩, -⟩ := OrderEngine.mem_onBook h.inv.indexed
          (List.mem_of_mem_filter hr)
        rw [hfill]
        exact fun _ rej hrej => by cases hrej
    · exact hcivil
  | other c =>
    rw [Duplex.step]
    split_ifs with hother
    · show ∀ msg ∈ x.reports ++ OrderEngine.reportsTo s (OrderEngine.step cfg x.engine c).2, _
      rw [(other_effect h.inv hother).2, List.append_nil]
      exact hcivil
    · exact hcivil
  | command =>
    rw [Duplex.step] at hanswers ⊢
    cases hcommands : x.commands with
    | nil => exact hcivil
    | cons m rest =>
      rw [hcommands] at hanswers
      intro msg hmsg
      exact (List.mem_append.mp hmsg).elim (hcivil msg) (hanswers msg)
  | report nowNs =>
    rw [Duplex.step]
    cases hreports : x.reports with
    | nil => exact hcivil
    | cons m rest => exact fun msg hmsg => hcivil msg (hreports ▸ List.mem_cons_of_mem m hmsg)
  | tob conflated nowNs =>
    rw [Duplex.step]
    cases x.books.drop conflated with
    | nil => exact hcivil
    | cons book rest => exact hcivil
  | timer nowNs => exact hcivil

/-- Every report in flight is civil. -/
theorem civil_run (cfg : EngineConfig) (scfg : StrategyConfig) (s : ℕ) (st : Strategy)
    (events : List Event) : ∀ msg ∈ (run cfg scfg s st events).1.reports, Civil cfg msg := by
  have hboth : Good cfg s (run cfg scfg s st events).1 ∧
      ∀ msg ∈ (run cfg scfg s st events).1.reports, Civil cfg msg :=
    Mealy.run_induct (Duplex.step cfg scfg s)
      (P := fun x _ => Good cfg s x ∧ ∀ msg ∈ x.reports, Civil cfg msg)
      ⟨Good.init cfg s st, fun _ hmsg => by cases hmsg⟩
      (fun _ _ ev h => ⟨h.1.step scfg ev, h.1.civil_step scfg h.2 ev⟩) events
  exact hboth.2

/-- Whatever is delivered in a run, the strategy heeds it: a strategy that quotes the engine's
symbol has heard all that was delivered, no delivery stops it, and if it has stopped, then because
the feed was stale. -/
theorem run_heedful (hsymbol : cfg.inst.symbol = scfg.symbol) (s : ℕ) (st : Strategy)
    (events : List Event) :
    let x := (run cfg scfg s st events).1
    (x.strategy.stopped = false → x.strategy.inSeq = x.inbound) ∧
      (x.strategy.stopped = true → x.strategy.swept = true) ∧
      (∀ m rest nowNs, x.reports = m :: rest →
        stopsIn (x.strategy.onReport scfg (m.stamp (x.inbound + 1) s) nowNs).2 = []) ∧
      (∀ book ∈ x.books, ∀ nowNs,
        stopsIn (x.strategy.onReport scfg
          ((tobOf cfg book).stamp (x.inbound + 1) s) nowNs).2 = []) ∧
      ∀ nowNs, ∀ reason ∈ stopsIn (x.strategy.onTimer scfg nowNs).2,
        ascii "stale feed" <+: reason := by
  intro x
  have hgood : Good cfg s x := good_run cfg scfg s st events
  have h : Attentive s x := attentive_run hsymbol s st events
  refine ⟨h.heard, h.swept, fun m rest nowNs hreports => ?_,
    fun book hbook nowNs => h.stops_tob hsymbol hbook nowNs, fun nowNs => ?_⟩
  · exact h.stops_report scfg (hgood.isTob_eq_false (hreports ▸ List.mem_cons_self)) nowNs
  · rcases Strategy.onTimer_guards scfg x.strategy nowNs with hidle | ⟨-, -, -, -, -, hstale⟩
    · rw [hidle]
      exact fun reason hreason => by cases hreason
    · exact hstale

/-- Both acks of the run are heard after the tick. -/
theorem run_heedful_quoting : (run specConfig quoterConfig 7 {} quoting).1.strategy.inSeq = 3 := by
  have hrun : (run specConfig quoterConfig 7 {} quoting).1.strategy.stopped = false ∧
      (run specConfig quoterConfig 7 {} quoting).1.inbound = 3 := by decide +kernel
  exact ((run_heedful rfl 7 {} quoting).1 hrun.1).trans hrun.2

end Duplex

end MarketMaker
