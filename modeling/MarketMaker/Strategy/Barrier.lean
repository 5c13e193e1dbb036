import MarketMaker.Strategy.Sweep

/-!
# The reject barrier

After the engine has refused the order that a side quotes with, the side stays silent until a book
at another price has been evaluated. The bar comes first in `_quote`, so the first such book lifts
it whether or not it can be quoted on, and no other callback touches it but `on_connect`. -/

namespace MarketMaker

/-- The book that a callback brings. -/
def StrategyCall.book : StrategyCall → Option Tob
  | .onTob tob _ | .onReport (.tob tob) _ => some tob
  | _ => none

/-- A new connection forgets the refused prices. -/
def StrategyCall.Connects (call : StrategyCall) : Prop := ∃ epoch, call = .onConnect epoch

namespace Strategy

/-- A report that `on_report` does not drop. -/
def Admits (st : Strategy) (msg : OutMsg) : Prop :=
  st.stopped = false ∧ msg.epoch = st.epoch ∧ msg.seq = st.inSeq + 1

/-- A callback brings a fresh book with another price on a side. -/
def Moves (cfg : StrategyConfig) (side : Side) (px : ℤ) (st : Strategy)
    (call : StrategyCall) : Prop :=
  ∃ tob, call.book = some tob ∧ st.Accepts cfg tob ∧ tob.pxOn side ≠ px

/-- A callback sends nothing for a side, and does not bring a book that lifts its bar. -/
def Silent (cfg : StrategyConfig) (side : Side) (px : ℤ) (st : Strategy) (call : StrategyCall) :
    Prop :=
  ¬st.Moves cfg side px call ∧ cmdsOn side (sends (st.call cfg call).2) = []

/-- A callback brings such a book, and lifts the bar. -/
def Lifts (cfg : StrategyConfig) (side : Side) (px : ℤ) (st : Strategy)
    (call : StrategyCall) : Prop :=
  st.Moves cfg side px call ∧ (st.call cfg call).1.rejectedPx side = none

/-- A report names the order that a side quotes with. -/
def Names (st : Strategy) (side : Side) (msg : OutMsg) (order : ClientOrder) : Prop :=
  st.currentOrder side = some order ∧ msg.clId = some order.clId

/-- The side quotes at a price, unless its order was in flight and has to settle first. -/
def QuotesAt (st st' : Strategy) (side : Side) (px : ℤ) : Prop :=
  ∃ o, st'.currentOrder side = some o ∧
    (o.px = px ∧ o.state ≠ .pendingCancel ∨ o.state = .pendingNew ∧ st.currentOrder side = some o)

/-- The rule of the barrier. -/
structure BarrierRule (cfg : StrategyConfig) (st : Strategy) : Prop where
  /-- A side whose order was refused is silent until its bar is lifted, or a new connection. -/
  barred : ∀ side order m nowNs, st.Admits (.reject m) → st.Names side (.reject m) order →
    ∀ calls, Mealy.Until (Strategy.call cfg) (Silent cfg side order.px)
      (fun st call => call.Connects ∨ st.Lifts cfg side order.px call)
      (st.call cfg (.onReport (.reject m) nowNs)).1 calls
  /-- A fresh book at a price that is not barred leaves no bar, and is quoted if it is not
  crossed. -/
  quoted : ∀ side call tob, call.book = some tob → st.Accepts cfg tob →
    st.rejectedPx side ≠ some (tob.pxOn side) →
    (st.call cfg call).1.rejectedPx side = none ∧
      (tob.bidPx < tob.askPx → st.QuotesAt (st.call cfg call).1 side (tob.pxOn side))
  /-- The reject of another order changes no bar. -/
  other : ∀ side m nowNs, (∀ order, ¬st.Names side (.reject m) order) →
    (st.call cfg (.onReport (.reject m) nowNs)).1.rejectedPx side = st.rejectedPx side

variable {cfg : StrategyConfig} {st : Strategy} {side : Side} {cmds : List Cmd}

/-! ## `_quote` and the bar -/

theorem rejectedPx_quoteUnbarred (side' : Side) (desiredPx askPx bidPx : ℤ) (mdSeq : ℕ) :
    (st.quoteUnbarred cfg side desiredPx askPx bidPx mdSeq).1.rejectedPx side' =
      st.rejectedPx side' := by
  unfold quoteUnbarred
  split_ifs
  · rfl
  · rfl
  · cases st.currentOrder side with
    | none => rfl
    | some order =>
      dsimp only
      split_ifs <;> rfl

/-- A quote at another price lifts the bar of its side. -/
theorem rejectedPx_quote (side' : Side) (desiredPx askPx bidPx : ℤ) (mdSeq : ℕ) :
    (st.quote cfg side desiredPx askPx bidPx mdSeq).1.rejectedPx side' =
      if side' = side ∧ st.rejectedPx side ≠ some desiredPx then none else st.rejectedPx side' := by
  unfold quote
  cases hbar : st.rejectedPx side with
  | none =>
    dsimp only
    rw [rejectedPx_quoteUnbarred]
    split_ifs with hside
    · rw [hside.1, hbar]
    · rfl
  | some px =>
    dsimp only
    by_cases hpx : px = desiredPx
    · rw [if_pos hpx, hpx, if_neg (fun h => h.2 rfl)]
    · rw [if_neg hpx, rejectedPx_quoteUnbarred]
      by_cases hside : side' = side
      · rw [hside, if_pos ⟨rfl, fun h => hpx (Option.some.inj h)⟩]
        exact Function.update_self _ _ _
      · rw [if_neg fun h => hside h.1]
        exact Function.update_of_ne hside _ _

/-- A quote at the refused price does nothing. -/
theorem quote_barred {desiredPx : ℤ} (h : st.rejectedPx side = some desiredPx) (askPx bidPx : ℤ)
    (mdSeq : ℕ) : st.quote cfg side desiredPx askPx bidPx mdSeq = (st, []) := by
  simp only [quote, h, if_true]

/-- A new order takes the side: its id is none of the old ones. -/
theorem currentOrder_new (h : Tidy st cmds) (cfg : StrategyConfig) (px : ℤ) (mdSeq : ℕ) :
    (st.new cfg side px mdSeq).1.currentOrder side =
      some ⟨clIdOf side (st.nextCl side + 1), px, .pendingNew⟩ := by
  have hnone : st.orders.find? (fun o => o.clId = clIdOf side (st.nextCl side + 1)) = none := by
    rw [List.find?_eq_none]
    intro o ho hid
    obtain ⟨side', n, hn, heq⟩ := h.issued _ (h.sent o ho)
    obtain ⟨rfl, rfl⟩ := clIdOf_inj ((of_decide_eq_true hid).symm.trans heq)
    omega
  change Option.bind (Function.update st.current side _ side) _ = _
  rw [Function.update_self, Option.bind_some]
  change List.find? _ (st.orders ++ [_]) = _
  rw [List.find?_append, hnone, Option.none_or]
  exact List.find?_cons_of_pos (decide_eq_true rfl)

/-- A book that is not crossed is quoted on a side that is not barred. -/
theorem quotesAt_quoteUnbarred (h : Settled st cmds) (hrun : st.stopped = false) {book : Tob}
    (huncrossed : book.bidPx < book.askPx) (mdSeq : ℕ) :
    st.QuotesAt (st.quoteUnbarred cfg side (book.pxOn side) book.askPx book.bidPx mdSeq).1 side
      (book.pxOn side) := by
  have hbid : ¬(side = .bid ∧ book.pxOn side ≥ book.askPx) := by
    rintro ⟨rfl, hle⟩
    exact not_le.mpr huncrossed hle
  have hask : ¬(side = .ask ∧ book.pxOn side ≤ book.bidPx) := by
    rintro ⟨rfl, hle⟩
    exact not_le.mpr huncrossed hle
  unfold quoteUnbarred
  rw [if_neg hbid, if_neg hask]
  cases hcurrent : st.currentOrder side with
  | none => exact ⟨_, currentOrder_new h.toTidy cfg _ mdSeq, Or.inl ⟨rfl, OState.noConfusion⟩⟩
  | some order =>
    dsimp only
    obtain ⟨hmem, hcur⟩ := mem_of_currentOrder hcurrent
    have hside : sideOf order.clId = side := h.current side _ hcur
    have hstate := h.resting hrun order hmem (hside ▸ hcur)
    split_ifs with hpending hpx
    · exact ⟨order, hcurrent, Or.inr ⟨hpending, hcurrent⟩⟩
    · exact ⟨order, hcurrent, Or.inl ⟨hpx, hstate⟩⟩
    · exact ⟨_, currentOrder_new (h.toTidy.cancel hmem hstate) cfg _ mdSeq,
        Or.inl ⟨rfl, OState.noConfusion⟩⟩

theorem quotesAt_quote (h : Settled st cmds) (hrun : st.stopped = false) {book : Tob}
    (hbar : st.rejectedPx side ≠ some (book.pxOn side)) (huncrossed : book.bidPx < book.askPx)
    (mdSeq : ℕ) :
    st.QuotesAt (st.quote cfg side (book.pxOn side) book.askPx book.bidPx mdSeq).1 side
      (book.pxOn side) := by
  unfold quote
  cases hrejected : st.rejectedPx side with
  | none => exact quotesAt_quoteUnbarred h hrun huncrossed mdSeq
  | some px =>
    have hpx : px ≠ book.pxOn side := fun heq => hbar (heq ▸ hrejected)
    dsimp only
    rw [if_neg hpx]
    exact quotesAt_quoteUnbarred (h.lift side) hrun huncrossed mdSeq

/-- What one side decides shows nothing of the other one. -/
theorem currentOrder_quote_of_ne (h : st.CurrentOk) {side' : Side} (hside : side' ≠ side)
    (desiredPx askPx bidPx : ℤ) (mdSeq : ℕ) :
    (st.quote cfg side desiredPx askPx bidPx mdSeq).1.currentOrder side' =
    st.currentOrder side' := by
  have hdecided := decided_quote cfg side h desiredPx askPx bidPx mdSeq
  rw [currentOrder_eq side' (h.decided hdecided), (hdecided.other side' hside).1,
    ← currentOrder_eq side' h]

/-! ## A fresh book -/

/-- A fresh book is noted, and then quoted on both sides. -/
theorem onTob_fresh (h : Settled st cmds) {tob : Tob} (haccepts : st.Accepts cfg tob) (nowNs : ℤ) :
    ∃ moved : Strategy, Settled moved cmds ∧ moved.stopped = false ∧
      moved.rejectedPx = st.rejectedPx ∧ moved.currentOrder = st.currentOrder ∧
      let bid := moved.quote cfg .bid (tob.pxOn .bid) tob.askPx tob.bidPx tob.mdSeq
      let ask := bid.1.quote cfg .ask (tob.pxOn .ask) tob.askPx tob.bidPx tob.mdSeq
      st.onTob cfg tob nowNs = (ask.1, bid.2 ++ ask.2) := by
  obtain ⟨hno, -⟩ | ⟨hno, -⟩ | ⟨-, conflatedSeen, heq⟩ := onTob_cases cfg st tob nowNs
  · exact absurd haccepts hno
  · exact absurd haccepts hno
  · refine ⟨_, ?_, ?_, ?_, ?_, heq⟩
    · exact h.congr rfl rfl rfl rfl rfl
    · exact haccepts.1
    · rfl
    · rfl

theorem quoted_onTob (h : Settled st cmds) {tob : Tob} (haccepts : st.Accepts cfg tob) (nowNs : ℤ)
    (hbar : st.rejectedPx side ≠ some (tob.pxOn side)) :
    (st.onTob cfg tob nowNs).1.rejectedPx side = none ∧
      (tob.bidPx < tob.askPx → st.QuotesAt (st.onTob cfg tob nowNs).1 side (tob.pxOn side)) := by
  obtain ⟨moved, hmoved, hrun, hrejected, hcurrent, heq⟩ := onTob_fresh h haccepts nowNs
  rw [← hrejected] at hbar
  rw [heq, QuotesAt, ← hcurrent]
  dsimp only
  have hbidSettled := @Settled.quote cfg _ _ hmoved hrun .bid (tob.pxOn .bid) tob.askPx tob.bidPx
    tob.mdSeq
  cases side with
  | bid =>
    have hother : Side.bid ≠ Side.ask := fun hside => by contradiction
    refine ⟨?_, fun huncrossed => ?_⟩
    · rw [rejectedPx_quote, if_neg fun hside => hother hside.1, rejectedPx_quote,
        if_pos ⟨rfl, hbar⟩]
    · obtain ⟨o, ho, hpx⟩ := @quotesAt_quote cfg _ _ _ hmoved hrun _ hbar huncrossed tob.mdSeq
      exact ⟨o, (currentOrder_quote_of_ne hbidSettled.current hother ..).trans ho, hpx⟩
  | ask =>
    -- the bid has been quoted by then, which shows nothing of the ask
    have hother : Side.ask ≠ Side.bid := fun hside => by contradiction
    have hbar' : (moved.quote cfg .bid (tob.pxOn .bid) tob.askPx tob.bidPx tob.mdSeq).1.rejectedPx
        .ask ≠ some (tob.pxOn .ask) := by
      rwa [rejectedPx_quote, if_neg fun hside => hother hside.1]
    refine ⟨?_, fun huncrossed => ?_⟩
    · rw [rejectedPx_quote, if_pos ⟨rfl, hbar'⟩]
    · obtain ⟨o, ho, hpx⟩ := @quotesAt_quote cfg _ _ _ hbidSettled
        ((quote_frame ..).1.trans hrun) _ hbar' huncrossed tob.mdSeq
      rw [currentOrder_quote_of_ne hmoved.current hother] at hpx
      exact ⟨o, ho, hpx⟩

/-- A fresh book at the refused price is nothing to the side. -/
theorem barred_onTob (h : Settled st cmds) {tob : Tob} (haccepts : st.Accepts cfg tob) (nowNs : ℤ)
    (hbar : st.rejectedPx side = some (tob.pxOn side)) :
    cmdsOn side (sends (st.onTob cfg tob nowNs).2) = [] ∧
      (st.onTob cfg tob nowNs).1.rejectedPx side = some (tob.pxOn side) := by
  obtain ⟨moved, hmoved, hrun, hrejected, -, heq⟩ := onTob_fresh h haccepts nowNs
  rw [← hrejected] at hbar
  rw [heq]
  dsimp only
  rw [sends_append, cmdsOn_append]
  cases side with
  | bid =>
    have hother : Side.bid ≠ Side.ask := fun hside => by contradiction
    have hquiet := (decided_quote cfg .ask hmoved.current (tob.pxOn .ask) tob.askPx tob.bidPx
      tob.mdSeq).other .bid hother
    rw [quote_barred hbar]
    dsimp only
    rw [hquiet.2, rejectedPx_quote, if_neg fun hside => hother hside.1]
    exact ⟨rfl, hbar⟩
  | ask =>
    have hother : Side.ask ≠ Side.bid := fun hside => by contradiction
    have hquiet := (decided_quote cfg .bid hmoved.current (tob.pxOn .bid) tob.askPx tob.bidPx
      tob.mdSeq).other .ask hother
    have hbar' : (moved.quote cfg .bid (tob.pxOn .bid) tob.askPx tob.bidPx tob.mdSeq).1.rejectedPx
        .ask = some (tob.pxOn .ask) := by
      rwa [rejectedPx_quote, if_neg fun hside => hother hside.1]
    rw [hquiet.2, quote_barred hbar']
    exact ⟨rfl, hbar'⟩

/-! ## While the bar is up -/

/-- A report of an order: the orders of a barred side are all being cancelled. -/
theorem barred_applyReport (h : Settled st cmds) {px : ℤ} (hbar : st.rejectedPx side = some px)
    (cfg : StrategyConfig) {order : ClientOrder} (hmem : order ∈ st.orders) (msg : OutMsg) :
    cmdsOn side (sends (st.applyReport cfg order msg).2) = [] ∧
      (st.applyReport cfg order msg).1.rejectedPx side = some px := by
  have hcurrent : st.current side = none := h.barred side px hbar
  cases msg with
  | tob _ => exact ⟨rfl, hbar⟩
  | orderAck _ =>
    simp only [applyReport]
    split_ifs with hstate
    · -- an order that is not being cancelled holds its side, so it is on the other one
      have hne : order.state ≠ .pendingCancel := by
        rw [hstate]
        exact OState.noConfusion
      have hother : side ≠ sideOf order.clId := by
        intro hside
        have hnamed := h.named order hmem hne
        rw [← hside, hcurrent] at hnamed
        cases hnamed
      unfold reconsider
      split
      · refine ⟨?_, ?_⟩
        · exact ((decided_quote cfg _ (h.current.setState order.clId .live) _ _ _ _).other side
            hother).2
        · rw [rejectedPx_quote, if_neg fun hside => hother hside.1]
          exact hbar
      · exact ⟨rfl, hbar⟩
    · exact ⟨rfl, hbar⟩
  | cancelAck _ => exact ⟨rfl, hbar⟩
  | fill _ =>
    simp only [applyReport]
    split_ifs <;> exact ⟨rfl, hbar⟩
  | reject _ =>
    simp only [applyReport]
    split_ifs with hheld
    · refine ⟨rfl, ?_⟩
      have hother : side ≠ sideOf order.clId := by
        intro hside
        rw [← hside, hcurrent] at hheld
        cases hheld
      exact (Function.update_of_ne hother _ _).trans hbar
    · exact ⟨rfl, hbar⟩

theorem barred_onOrderReport (h : Settled st cmds) {px : ℤ} (hbar : st.rejectedPx side = some px)
    (cfg : StrategyConfig) (msg : OutMsg) :
    cmdsOn side (sends (st.onOrderReport cfg msg).2) = [] ∧
      (st.onOrderReport cfg msg).1.rejectedPx side = some px := by
  unfold onOrderReport
  by_cases hguard : st.stopped = true ∨ msg.epoch ≠ st.epoch
  · rw [if_pos hguard]
    exact ⟨rfl, hbar⟩
  rw [if_neg hguard]
  by_cases hseq : msg.seq = st.inSeq + 1
  · have hadvance : st.advanceSeq msg.seq = ({ st with inSeq := msg.seq }, none) :=
      if_neg (not_not.mpr hseq)
    have hcounted : Settled { st with inSeq := msg.seq } cmds := h.congr rfl rfl rfl rfl rfl
    rw [hadvance]
    dsimp only
    split
    · exact ⟨rfl, hbar⟩
    · next order hfind =>
      obtain ⟨clId, -, hget⟩ := Option.bind_eq_some_iff.mp hfind
      exact barred_applyReport hcounted hbar cfg (mem_of_getOrder hget).1 msg
  · have hadvance : st.advanceSeq msg.seq = (_, some _) := if_pos hseq
    rw [hadvance]
    exact ⟨rfl, hbar⟩

theorem rejectedPx_cancelAll (st : Strategy) (l : List ClientOrder) :
    (st.cancelAll l).1.rejectedPx = st.rejectedPx := by
  induction l generalizing st with
  | nil => rfl
  | cons order l ih => exact ih (st.cancel order).1

theorem rejectedPx_onTimer (st : Strategy) (cfg : StrategyConfig) (nowNs : ℤ) :
    (st.onTimer cfg nowNs).1.rejectedPx = st.rejectedPx := by
  by_cases hidle : ¬st.Stale cfg nowNs ∨ st.swept = true
  · rw [onTimer_idle hidle]
  · obtain ⟨hstale, hswept⟩ := not_or.mp hidle
    obtain ⟨announced, -, -, -, heq⟩ :=
      onTimer_stale (Bool.eq_false_iff.mpr hswept) (not_not.mp hstale)
    rw [heq]
    exact rejectedPx_cancelAll _ _

/-- The sweep has nothing to cancel on a barred side. -/
theorem barred_onTimer (h : Settled st cmds) {px : ℤ} (hbar : st.rejectedPx side = some px)
    (cfg : StrategyConfig) (nowNs : ℤ) : cmdsOn side (sends (st.onTimer cfg nowNs).2) = [] := by
  rcases @onTimer_spec cfg st nowNs with ⟨hinert, -⟩ | hswept
  · rw [hinert.sends]
    rfl
  · rw [hswept.cmds side, List.map_eq_nil_iff, List.filter_eq_nil_iff]
    intro o ho hstate
    obtain ⟨hmem, hside⟩ := List.mem_filter.mp ho
    have hnamed := h.named o hmem (of_decide_eq_true hstate)
    rw [of_decide_eq_true hside, h.barred side px hbar] at hnamed
    cases hnamed

/-- What holds while the bar of a side is up. -/
structure Barred (side : Side) (px : ℤ) (st : Strategy) : Prop where
  bar : st.rejectedPx side = some px
  keeps : ∃ book cmds, Keeps book cmds (st, [])

/-- A book lifts the bar, or is nothing to the side. -/
theorem Barred.onTob {px : ℤ} (h : Barred side px st) (cfg : StrategyConfig) (tob : Tob)
    (nowNs : ℤ) :
    (st.Accepts cfg tob ∧ tob.pxOn side ≠ px) ∧ (st.onTob cfg tob nowNs).1.rejectedPx side = none ∨
      ¬(st.Accepts cfg tob ∧ tob.pxOn side ≠ px) ∧
        cmdsOn side (sends (st.onTob cfg tob nowNs).2) = [] ∧
        (st.onTob cfg tob nowNs).1.rejectedPx side = some px := by
  obtain ⟨book, cmds, hkeeps⟩ := h.keeps
  have hsettled : Settled st cmds := by simpa using hkeeps.settled
  have hbar := h.bar
  by_cases haccepts : st.Accepts cfg tob
  · by_cases hpx : tob.pxOn side = px
    · rw [← hpx] at hbar ⊢
      exact Or.inr ⟨fun hmoves => hmoves.2 rfl, barred_onTob hsettled haccepts nowNs hbar⟩
    · refine Or.inl ⟨⟨haccepts, hpx⟩, (quoted_onTob hsettled haccepts nowNs fun heq => ?_).1⟩
      exact hpx (Option.some.inj (heq.symm.trans hbar))
  · refine Or.inr ⟨fun hmoves => haccepts hmoves.1, ?_⟩
    obtain ⟨-, inSeq, lastTobNs, -, heq⟩ | ⟨-, inSeq, reason, heq⟩ | ⟨hyes, -⟩ :=
      onTob_cases cfg st tob nowNs
    · rw [heq]
      exact ⟨rfl, hbar⟩
    · rw [heq]
      exact ⟨rfl, hbar⟩
    · exact absurd hyes haccepts

/-- The bar is up until a book at another price lifts it. -/
theorem Barred.call {px : ℤ} (h : Barred side px st) (cfg : StrategyConfig) (call : StrategyCall) :
    (call.Connects ∨ st.Lifts cfg side px call) ∨
      st.Silent cfg side px call ∧ Barred side px (st.call cfg call).1 := by
  obtain ⟨book, cmds, hkeeps⟩ := h.keeps
  have hsettled : Settled st cmds := by simpa using hkeeps.settled
  have hkept : ∃ book cmds, Keeps book cmds ((st.call cfg call).1, []) :=
    ⟨_, _, Watched.Good.step (w := ⟨st, cmds, book⟩) hkeeps call⟩
  -- a callback that brings no book
  have hquiet : call.book = none → cmdsOn side (sends (st.call cfg call).2) = [] →
      (st.call cfg call).1.rejectedPx side = some px →
      st.Silent cfg side px call ∧ Barred side px (st.call cfg call).1 := by
    intro hbook hcmds hbar
    refine ⟨⟨fun ⟨tob, htob, _⟩ => ?_, hcmds⟩, hbar, hkept⟩
    rw [hbook] at htob
    cases htob
  have htob : ∀ tob nowNs, call.book = some tob → st.call cfg call = st.onTob cfg tob nowNs →
      st.Lifts cfg side px call ∨
        st.Silent cfg side px call ∧ Barred side px (st.call cfg call).1 := by
    intro tob nowNs hbook hcall
    have hmoves : st.Moves cfg side px call ↔ st.Accepts cfg tob ∧ tob.pxOn side ≠ px := by
      refine ⟨fun ⟨tob', hbook', hmoves⟩ => ?_, fun hmoves => ⟨tob, hbook, hmoves⟩⟩
      rw [hbook] at hbook'
      cases hbook'
      exact hmoves
    rw [Lifts, Silent, hmoves]
    refine (h.onTob cfg tob nowNs).imp (fun hlifts => ?_) fun ⟨hno, hcmds, hbar⟩ => ?_
    · rw [hcall]
      exact hlifts
    · rw [← hcall] at hcmds hbar
      exact ⟨⟨hno, hcmds⟩, hbar, hkept⟩
  cases call with
  | onConnect epoch => exact Or.inl (Or.inl ⟨epoch, rfl⟩)
  | onTob tob nowNs => exact (htob tob nowNs rfl rfl).imp_left Or.inr
  | onTimer nowNs =>
    refine Or.inr (hquiet rfl (barred_onTimer hsettled h.bar cfg nowNs) ?_)
    exact (congrFun (rejectedPx_onTimer st cfg nowNs) side).trans h.bar
  | onDisconnect => exact Or.inr (hquiet rfl rfl h.bar)
  | onReport msg nowNs =>
    have hreport := barred_onOrderReport hsettled h.bar cfg msg
    cases msg with
    | tob tob => exact (htob tob nowNs rfl rfl).imp_left Or.inr
    | orderAck m => exact Or.inr (hquiet rfl hreport.1 hreport.2)
    | cancelAck m => exact Or.inr (hquiet rfl hreport.1 hreport.2)
    | fill m => exact Or.inr (hquiet rfl hreport.1 hreport.2)
    | reject m => exact Or.inr (hquiet rfl hreport.1 hreport.2)

/-! ## Rejects -/

/-- The reject of the order that a side quotes with puts up its bar. -/
theorem rejectedPx_onReject (h : st.CurrentOk) {order : ClientOrder} {m : Reject}
    (hadmits : st.Admits (.reject m)) (hnames : st.Names side (.reject m) order) :
    (st.onOrderReport cfg (.reject m)).1.rejectedPx side = some order.px := by
  obtain ⟨hrun, hepoch, hseq⟩ := hadmits
  obtain ⟨hcurrent, hid⟩ := hnames
  obtain ⟨hmem, hcur⟩ := mem_of_currentOrder hcurrent
  have hside : sideOf order.clId = side := h side _ hcur
  have hget : st.getOrder order.clId = some order := by
    rwa [currentOrder, hcur, Option.bind_some] at hcurrent
  have hguard : ¬(st.stopped = true ∨ (OutMsg.reject m).epoch ≠ st.epoch) := by
    rw [hrun, hepoch]
    simp
  have hadvance : st.advanceSeq (OutMsg.reject m).seq =
      ({ st with inSeq := (OutMsg.reject m).seq }, none) := if_neg (not_not.mpr hseq)
  have hfind : (OutMsg.reject m).clId.bind
      ({ st with inSeq := (OutMsg.reject m).seq } : Strategy).getOrder = some order := by
    rw [hid]
    exact hget
  rw [onOrderReport, if_neg hguard, hadvance]
  dsimp only
  rw [hfind]
  simp only [applyReport]
  rw [hside, if_pos hcur]
  exact Function.update_self _ _ _

/-- The reject of another order puts up none. -/
theorem rejectedPx_onReject_of_ne {m : Reject}
    (hother : ∀ order, ¬st.Names side (.reject m) order) :
    (st.onOrderReport cfg (.reject m)).1.rejectedPx side = st.rejectedPx side := by
  unfold onOrderReport
  by_cases hguard : st.stopped = true ∨ (OutMsg.reject m).epoch ≠ st.epoch
  · rw [if_pos hguard]
  rw [if_neg hguard]
  by_cases hseq : (OutMsg.reject m).seq = st.inSeq + 1
  · have hadvance : st.advanceSeq (OutMsg.reject m).seq =
        ({ st with inSeq := (OutMsg.reject m).seq }, none) := if_neg (not_not.mpr hseq)
    rw [hadvance]
    dsimp only
    split
    · rfl
    · next order hfind =>
      obtain ⟨clId, hid, hget⟩ := Option.bind_eq_some_iff.mp hfind
      simp only [applyReport]
      split_ifs with hheld
      · refine Function.update_of_ne (fun hside => hother order ⟨?_, ?_⟩) _ _
        · have hclId := (mem_of_getOrder hget).2
          rw [currentOrder, hside, hheld, Option.bind_some, hclId]
          exact hget
        · rw [hid, (mem_of_getOrder hget).2]
      · rfl
  · have hadvance : st.advanceSeq (OutMsg.reject m).seq = (_, some _) := if_pos hseq
    rw [hadvance]
    rfl

/-- Whatever the callbacks and their messages, the barrier follows its rule after each of them. -/
theorem run_barrierRule (cfg : StrategyConfig) (epoch : ℕ) (calls : List StrategyCall) :
    BarrierRule cfg (Watched.run cfg epoch calls).1.strategy := by
  have hgood := Watched.good_run cfg epoch calls
  have hsettled : (Watched.run cfg epoch calls).1.strategy.Settled
      (Watched.run cfg epoch calls).1.cmds := by simpa using hgood.settled
  constructor
  case barred =>
    intro side order m nowNs hadmits hnames calls'
    refine Mealy.until_of_keep (Strategy.call cfg) (P := Barred side order.px) ⟨?_, ?_⟩
      (fun st call h => h.call cfg call) calls'
    · exact rejectedPx_onReject hsettled.current hadmits hnames
    · exact ⟨_, _, hgood.step (.onReport (.reject m) nowNs)⟩
  case quoted =>
    intro side call tob hbook haccepts hbar
    cases call with
    | onTob tob' nowNs =>
      cases hbook
      exact quoted_onTob hsettled haccepts nowNs hbar
    | onReport msg nowNs =>
      cases msg with
      | tob tob' =>
        cases hbook
        exact quoted_onTob hsettled haccepts nowNs hbar
      | orderAck _ => cases hbook
      | cancelAck _ => cases hbook
      | fill _ => cases hbook
      | reject _ => cases hbook
    | onConnect _ => cases hbook
    | onTimer _ => cases hbook
    | onDisconnect => cases hbook
  case other => exact fun side m nowNs hother => rejectedPx_onReject_of_ne hother

/-- Two sessions of a strategy each see this book. -/
def steadyBook (epoch : ℕ) : Tob :=
  { seq := 1, epoch, mdSeq := 1, symbol := ascii "X", bidPx := 100, bidQty := 1, askPx := 110
    askQty := 1 }

/-- A new connection ends the silence: the same book is quoted on again. -/
theorem run_barrier_reconnect :
    ¬∀ cfg epoch calls side order m nowNs,
      let st := (Watched.run cfg epoch calls).1.strategy
      st.Admits (.reject m) → st.Names side (.reject m) order →
      ∀ calls', Mealy.Until (Strategy.call cfg) (Silent cfg side order.px)
        (Lifts cfg side order.px) (st.call cfg (.onReport (.reject m) nowNs)).1 calls' := by
  intro h
  have huntil := h ⟨ascii "X", 1, 1, 1000⟩ 1 [.onTob (steadyBook 1) 0] .bid
    ⟨clIdOf .bid 1, 100, .pendingNew⟩
    { seq := 2, epoch := 1, clId := clIdOf .bid 1, code := [], reason := [] } 0 ⟨rfl, rfl, rfl⟩
    ⟨rfl, rfl⟩ [.onConnect 2, .onTob (steadyBook 2) 0]
  obtain ⟨⟨tob, htob, -⟩, -⟩ | ⟨-, hnext⟩ := huntil
  · cases htob
  obtain ⟨⟨tob, htob, -, hpx⟩, -⟩ | ⟨⟨-, hcmds⟩, -⟩ := hnext
  · cases htob
    exact hpx rfl
  · exact absurd hcmds (by decide)

end Strategy

end MarketMaker
