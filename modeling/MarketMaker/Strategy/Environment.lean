import MarketMaker.Lib.Mealy
import MarketMaker.Strategy.Tidy

/-!
# The strategy under an arbitrary environment

Any sequence of the five callbacks, with any messages. `Watched` is the strategy beside what one
connection has seen of it: the commands since the last `on_connect` and the last accepted book.
Each edit of the strategy (a cancel, a new order, a retirement) keeps an invariant of the two,
and the callbacks are sequences of these edits.
-/

namespace MarketMaker

/-- A callback of the strategy. -/
inductive StrategyCall
  | onConnect (epoch : ℕ)
  | onTob (tob : Tob) (nowNs : ℤ)
  | onReport (msg : OutMsg) (nowNs : ℤ)
  | onTimer (nowNs : ℤ)
  | onDisconnect

namespace Strategy

variable (cfg : StrategyConfig)

/-- A callback. -/
def call (st : Strategy) : StrategyCall → Strategy × List Cmd
  | .onConnect epoch => st.onConnect epoch
  | .onTob tob nowNs => st.onTob cfg tob nowNs
  | .onReport msg nowNs => st.onReport cfg msg nowNs
  | .onTimer nowNs => st.onTimer cfg nowNs
  | .onDisconnect => st.onDisconnect

/-- A tick that moves the book: it passes `_admit`, and its `md_seq` is a later one. -/
def Accepts (st : Strategy) (tob : Tob) : Prop :=
  st.stopped = false ∧ tob.epoch = st.epoch ∧ tob.seq = st.inSeq + 1 ∧ tob.symbol = cfg.symbol ∧
    st.mdSeq < tob.mdSeq

instance (st : Strategy) (tob : Tob) : Decidable (st.Accepts cfg tob) :=
  inferInstanceAs (Decidable (_ ∧ _ ∧ _ ∧ _ ∧ _))

/-- The last accepted book after a callback. -/
def bookAfter (st : Strategy) (book : Option Tob) : StrategyCall → Option Tob
  | .onConnect _ | .onDisconnect => none
  | .onTob tob _ | .onReport (.tob tob) _ => if st.Accepts cfg tob then some tob else book
  | .onReport _ _ | .onTimer _ => book

end Strategy

/-- The strategy and what the present connection has seen of it. -/
structure Watched where
  strategy : Strategy
  /-- The commands since the last `on_connect`. -/
  cmds : List Cmd := []
  /-- The last accepted book. -/
  book : Option Tob := none

namespace Watched

variable (cfg : StrategyConfig)

def step (w : Watched) (call : StrategyCall) : Watched × List Cmd :=
  let r := w.strategy.call cfg call
  let before := match call with
    | .onConnect _ => []
    | _ => w.cmds
  ({ strategy := r.1, cmds := before ++ r.2, book := w.strategy.bookAfter cfg w.book call }, r.2)

/-- A run of callbacks on a strategy that has just been constructed. -/
abbrev run (epoch : ℕ) (calls : List StrategyCall) : Watched × List (StrategyCall × List Cmd) :=
  Mealy.run (step cfg) { strategy := { epoch } } calls

end Watched

namespace Strategy

variable {cfg : StrategyConfig} {st : Strategy} {cmds : List Cmd}

/-! ## The callbacks keep it -/

/-- `Tidy`, and a running strategy quotes with orders that are not being cancelled. -/
structure Settled (st : Strategy) (cmds : List Cmd) : Prop extends Tidy st cmds where
  resting : st.stopped = false → st.Resting

/-- What is settled is about the orders and their sides. -/
theorem Settled.congr (h : Settled st cmds) {st' : Strategy} (horders : st'.orders = st.orders)
    (hcurrent : st'.current = st.current) (hnext : st'.nextCl = st.nextCl)
    (hrejected : st'.rejectedPx = st.rejectedPx) (hstopped : st'.stopped = st.stopped) :
    Settled st' cmds where
  toTidy := h.toTidy.congr horders hcurrent hnext hrejected hstopped
  resting hrun := by
    rw [hstopped] at hrun
    rw [Resting, horders, hcurrent]
    exact h.resting hrun

/-- A side without a current order has only orders that are being cancelled. -/
theorem Tidy.idle (h : Tidy st cmds) {side : Side} (hnone : st.currentOrder side = none) :
    ∀ o ∈ st.orders, sideOf o.clId = side → o.state = .pendingCancel := by
  rintro o ho rfl
  by_contra hne
  have hget := getOrder_isSome ho
  rw [currentOrder, h.named o ho hne, Option.bind_some] at hnone
  rw [hnone] at hget
  cases hget

/-- So has a side whose current order is being cancelled. -/
theorem Tidy.idle_cancel (h : Tidy st cmds) {side : Side} {order : ClientOrder}
    (hcur : st.current side = some order.clId) :
    ∀ o ∈ (st.cancel order).1.orders, sideOf o.clId = side → o.state = .pendingCancel := by
  intro o ho hside
  obtain ⟨o', ho', rfl⟩ := mem_setState.mp ho
  split_ifs at hside ⊢ with heq
  · rfl
  · by_contra hne
    have hnamed := h.named o' ho' hne
    rw [hside, hcur] at hnamed
    exact heq (Option.some.inj hnamed).symm

/-- A new order takes its side, and leaves the other one as it was. -/
theorem Tidy.resting_new (h : Tidy st cmds) (cfg : StrategyConfig) {side : Side}
    (hrest : ∀ o ∈ st.orders, sideOf o.clId ≠ side → st.current (sideOf o.clId) = some o.clId →
      o.state ≠ .pendingCancel) (px : ℤ) (mdSeq : ℕ) :
    (st.new cfg side px mdSeq).1.Resting := by
  intro o ho hcur
  change Function.update st.current side _ _ = _ at hcur
  obtain hold | hnow := List.mem_append.mp ho
  · by_cases hside : sideOf o.clId = side
    · rw [hside, Function.update_self] at hcur
      -- the id of the new order is none of the old ones
      obtain ⟨side', n, hn, heq⟩ := h.issued _ (h.sent o hold)
      rw [← Option.some.inj hcur] at heq
      obtain ⟨rfl, rfl⟩ := clIdOf_inj heq
      omega
    · rw [Function.update_of_ne hside] at hcur
      exact hrest o hold hside hcur
  · obtain rfl := List.mem_singleton.mp hnow
    exact OState.noConfusion

/-- `_quote` after the bar. -/
theorem Settled.quoteUnbarred (h : Settled st cmds) (hrun : st.stopped = false) {side : Side}
    (hbar : st.rejectedPx side = none) (desiredPx askPx bidPx : ℤ) (mdSeq : ℕ) :
    let r := st.quoteUnbarred cfg side desiredPx askPx bidPx mdSeq
    Settled r.1 (cmds ++ r.2) := by
  have hsilent : Settled st (cmds ++ []) := (List.append_nil cmds).symm ▸ h
  intro r
  simp only [r, Strategy.quoteUnbarred]
  split_ifs
  · exact hsilent
  · exact hsilent
  · cases horder : st.currentOrder side with
    | none =>
      refine ⟨h.toTidy.new cfg hrun (h.idle horder) hbar desiredPx mdSeq, fun _ => ?_⟩
      exact h.resting_new cfg (fun o ho _ => h.resting hrun o ho) desiredPx mdSeq
    | some order =>
      dsimp only
      split_ifs
      · exact hsilent
      · exact hsilent
      · -- the quote moves: cancel, then new
        obtain ⟨hmem, hcur⟩ := mem_of_currentOrder horder
        have hside : sideOf order.clId = side := h.current side _ hcur
        have hstate := h.resting hrun order hmem (hside ▸ hcur)
        have hcancelled := h.toTidy.cancel hmem hstate
        have hboth := hcancelled.new cfg hrun (h.idle_cancel hcur) hbar desiredPx mdSeq
        rw [List.append_assoc] at hboth
        refine ⟨hboth, fun _ => hcancelled.resting_new cfg (fun o ho hother hcur' => ?_) _ mdSeq⟩
        obtain ⟨o', ho', rfl⟩ := mem_setState.mp ho
        split_ifs at hother hcur' ⊢ with heq
        · exact absurd (heq ▸ hside) hother
        · exact h.resting hrun o' ho' hcur'

/-- Lifting a bar asks nothing of the side. -/
theorem Settled.lift (h : Settled st cmds) (side : Side) :
    Settled { st with rejectedPx := Function.update st.rejectedPx side none } cmds := by
  refine ⟨⟨h.nodup, h.orderly, h.issued, h.sent, h.uncancelled, h.named, h.current, ?_, h.halted⟩,
    h.resting⟩
  intro side' px' hpx'
  change Function.update st.rejectedPx side none side' = some px' at hpx'
  by_cases hside : side' = side
  · subst hside
    rw [Function.update_self] at hpx'
    cases hpx'
  · rw [Function.update_of_ne hside] at hpx'
    exact h.barred side' px' hpx'

/-- `_quote`. -/
theorem Settled.quote (h : Settled st cmds) (hrun : st.stopped = false) (side : Side)
    (desiredPx askPx bidPx : ℤ) (mdSeq : ℕ) :
    let r := st.quote cfg side desiredPx askPx bidPx mdSeq
    Settled r.1 (cmds ++ r.2) := by
  intro r
  simp only [r, Strategy.quote]
  cases hbar : st.rejectedPx side with
  | none => exact h.quoteUnbarred hrun hbar _ _ _ _
  | some px =>
    dsimp only
    split_ifs
    · rwa [List.append_nil]
    · exact (h.lift side).quoteUnbarred hrun (Function.update_self ..) _ _ _ _

/-- What a quote leaves alone. -/
theorem quote_frame (cfg : StrategyConfig) (st : Strategy) (side : Side)
    (desiredPx askPx bidPx : ℤ) (mdSeq : ℕ) :
    let r := st.quote cfg side desiredPx askPx bidPx mdSeq
    r.1.stopped = st.stopped ∧ r.1.bidPx = st.bidPx ∧ r.1.askPx = st.askPx := by
  have hunbarred : ∀ st : Strategy, let r := st.quoteUnbarred cfg side desiredPx askPx bidPx mdSeq
      r.1.stopped = st.stopped ∧ r.1.bidPx = st.bidPx ∧ r.1.askPx = st.askPx := by
    intro st r
    simp only [r, quoteUnbarred]
    split_ifs
    · exact ⟨rfl, rfl, rfl⟩
    · exact ⟨rfl, rfl, rfl⟩
    · cases st.currentOrder side with
      | none => exact ⟨rfl, rfl, rfl⟩
      | some order =>
        dsimp only
        split_ifs <;> exact ⟨rfl, rfl, rfl⟩
  intro r
  simp only [r, quote]
  cases st.rejectedPx side with
  | none => exact hunbarred st
  | some px =>
    dsimp only
    split_ifs
    · exact ⟨rfl, rfl, rfl⟩
    · exact hunbarred _

end Strategy

/-- The side of a book that an order of a side quotes at. -/
def Tob.pxOn (book : Tob) : Side → ℤ
  | .bid => book.bidPx
  | .ask => book.askPx

/-- An order quotes at its side of a book, and does not reach the other one. -/
structure NewOrder.Quotes (m : NewOrder) (side : Side) (book : Tob) : Prop where
  side_eq : m.side = side.wire
  px_eq : m.px = book.pxOn side
  uncrossed : book.bidPx < book.askPx

namespace Strategy

/-- A quote is priced by the book it was drawn from. -/
theorem priced_quote {cfg : StrategyConfig} {st : Strategy} {side : Side} {book : Tob} {mdSeq : ℕ}
    {m : NewOrder}
    (h : .send (.newOrder m) ∈
      (st.quote cfg side (book.pxOn side) book.askPx book.bidPx mdSeq).2) :
    m.Quotes side book := by
  have hunbarred : ∀ st : Strategy, .send (.newOrder m) ∈
      (st.quoteUnbarred cfg side (book.pxOn side) book.askPx book.bidPx mdSeq).2 →
      m.Quotes side book := by
    intro st hmem
    have hnew : ∀ st : Strategy, .send (.newOrder m) = (st.new cfg side (book.pxOn side) mdSeq).2 →
        m.side = side.wire ∧ m.px = book.pxOn side := by
      rintro st heq
      cases heq
      exact ⟨rfl, rfl⟩
    simp only [quoteUnbarred] at hmem
    split_ifs at hmem with hbid hask
    · cases hmem
    · cases hmem
    · have huncrossed : book.bidPx < book.askPx := by
        cases side with
        | bid => exact not_le.mp fun hle => hbid ⟨rfl, hle⟩
        | ask => exact not_le.mp fun hle => hask ⟨rfl, hle⟩
      cases hcur : st.currentOrder side with
      | none =>
        rw [hcur] at hmem
        obtain ⟨hside, hpx⟩ := hnew st (List.mem_singleton.mp hmem)
        exact ⟨hside, hpx, huncrossed⟩
      | some order =>
        rw [hcur] at hmem
        dsimp only at hmem
        split_ifs at hmem
        · cases hmem
        · cases hmem
        · obtain hcancel | hmem := List.mem_cons.mp hmem
          · cases hcancel
          · obtain ⟨hside, hpx⟩ := hnew _ (List.mem_singleton.mp hmem)
            exact ⟨hside, hpx, huncrossed⟩
  simp only [quote] at h
  cases hbar : st.rejectedPx side with
  | none =>
    rw [hbar] at h
    exact hunbarred st h
  | some px =>
    rw [hbar] at h
    dsimp only at h
    split_ifs at h
    · cases h
    · exact hunbarred _ h

/-- What holds after a callback: the orders and commands are settled, the prices are those of the
last accepted book, and the new orders quote at it. -/
structure Keeps (book : Option Tob) (cmds : List Cmd) (r : Strategy × List Cmd) : Prop where
  settled : Settled r.1 (cmds ++ r.2)
  bid : r.1.bidPx = book.map Tob.bidPx
  ask : r.1.askPx = book.map Tob.askPx
  priced : ∀ m, .send (.newOrder m) ∈ r.2 → ∃ b ∈ book, ∃ side, m.Quotes side b

variable {cfg : StrategyConfig} {st : Strategy} {book : Option Tob} {cmds : List Cmd}

/-- A step that settles keeps the book. -/
theorem Keeps.of_settled {st' : Strategy} (h : Settled st' cmds)
    (hbid : st'.bidPx = book.map Tob.bidPx) (hask : st'.askPx = book.map Tob.askPx) :
    Keeps book cmds (st', []) where
  settled := by rwa [List.append_nil]
  bid := hbid
  ask := hask
  priced _ hmem := absurd hmem List.not_mem_nil

/-- An edit of the counters and of the freshness time. -/
theorem Keeps.count (h : Keeps book cmds (st, [])) (inSeq : ℕ) (lastTobNs : Option ℤ) :
    Keeps book cmds ({ st with inSeq, lastTobNs }, []) where
  settled := h.settled.congr rfl rfl rfl rfl rfl
  bid := h.bid
  ask := h.ask
  priced := h.priced

/-- A stop keeps it. -/
theorem Keeps.stop (h : Keeps book cmds (st, [])) (reason : Bytes) :
    Keeps book cmds (st.stop reason) where
  settled := by
    have hsettled : Settled st cmds := by simpa using h.settled
    exact ⟨hsettled.toTidy.stop reason, fun hrun => absurd hrun Bool.true_eq_false.mp⟩
  bid := h.bid
  ask := h.ask
  priced m hmem := by simp [Strategy.stop] at hmem

/-- A quote at the last accepted book, after other commands. -/
theorem Keeps.quote {b : Tob} {r : Strategy × List Cmd} (h : Keeps (some b) cmds r)
    (cfg : StrategyConfig) (hrun : r.1.stopped = false) (side : Side) (mdSeq : ℕ) :
    let q := r.1.quote cfg side (b.pxOn side) b.askPx b.bidPx mdSeq
    Keeps (some b) cmds (q.1, r.2 ++ q.2) := by
  intro q
  obtain ⟨-, hbid, hask⟩ := quote_frame cfg r.1 side (b.pxOn side) b.askPx b.bidPx mdSeq
  refine ⟨?_, hbid.trans h.bid, hask.trans h.ask, fun m hmem => ?_⟩
  · rw [← List.append_assoc]
    exact h.settled.quote hrun side _ _ _ mdSeq
  · obtain hbefore | hnow := List.mem_append.mp hmem
    · exact h.priced m hbefore
    · exact ⟨b, rfl, side, priced_quote hnow⟩

/-! ## `on_tob` -/

/-- What `_admit` may do: drop the tick, stop, or count it. -/
theorem admitTob_cases (cfg : StrategyConfig) (st : Strategy) (tob : Tob) :
    (¬ st.Accepts cfg tob ∧ st.admitTob cfg tob = (st, some [])) ∨
    (¬ st.Accepts cfg tob ∧ ∃ inSeq reason,
      let r := ({ st with inSeq } : Strategy).stop reason
      st.admitTob cfg tob = (r.1, some r.2)) ∨
    (st.stopped = false ∧ tob.epoch = st.epoch ∧ tob.seq = st.inSeq + 1 ∧
      tob.symbol = cfg.symbol ∧ st.admitTob cfg tob = ({ st with inSeq := tob.seq }, none)) := by
  unfold admitTob
  by_cases hstopped : st.stopped = true
  · refine .inl ⟨fun h => ?_, if_pos hstopped⟩
    rw [h.1] at hstopped
    cases hstopped
  rw [if_neg hstopped]
  by_cases hepoch : tob.epoch = st.epoch
  swap
  · exact .inl ⟨fun h => hepoch h.2.1, if_pos hepoch⟩
  rw [if_neg (not_not.mpr hepoch)]
  by_cases hseq : tob.seq = st.inSeq + 1
  swap
  · have hadvance : st.advanceSeq tob.seq = (_, some _) := if_pos hseq
    rw [hadvance]
    exact .inr (.inl ⟨fun h => hseq h.2.2.1, st.inSeq, _, rfl⟩)
  have hadvance : st.advanceSeq tob.seq = ({ st with inSeq := tob.seq }, none) :=
    if_neg (not_not.mpr hseq)
  rw [hadvance]
  by_cases hsymbol : tob.symbol = cfg.symbol
  · exact .inr (.inr ⟨Bool.eq_false_iff.mpr hstopped, hepoch, hseq, hsymbol,
      if_neg (not_not.mpr hsymbol)⟩)
  · exact .inr (.inl ⟨fun h => hsymbol h.2.2.2.1, tob.seq, _, if_pos hsymbol⟩)

/-- What `on_tob` may do: drop the tick or hear the same book again, stop, or quote at a later
book. -/
theorem onTob_cases (cfg : StrategyConfig) (st : Strategy) (tob : Tob) (nowNs : ℤ) :
    (¬ st.Accepts cfg tob ∧ ∃ inSeq lastTobNs, (lastTobNs = none → st.lastTobNs = none) ∧
      st.onTob cfg tob nowNs = ({ st with inSeq, lastTobNs }, [])) ∨
    (¬ st.Accepts cfg tob ∧ ∃ inSeq reason,
      st.onTob cfg tob nowNs = ({ st with inSeq } : Strategy).stop reason) ∨
    (st.Accepts cfg tob ∧ ∃ conflatedSeen,
      let moved : Strategy :=
        { st with
          inSeq := tob.seq, lastTobNs := some nowNs, conflatedSeen, mdSeq := tob.mdSeq
          bidPx := some tob.bidPx, askPx := some tob.askPx }
      let bid := moved.quote cfg .bid (tob.pxOn .bid) tob.askPx tob.bidPx tob.mdSeq
      let ask := bid.1.quote cfg .ask (tob.pxOn .ask) tob.askPx tob.bidPx tob.mdSeq
      st.onTob cfg tob nowNs = (ask.1, bid.2 ++ ask.2)) := by
  unfold onTob
  obtain ⟨hno, hverdict⟩ | ⟨hno, inSeq, reason, hverdict⟩ |
    ⟨hrun, hepoch, hseq, hsymbol, hverdict⟩ :=
    admitTob_cases cfg st tob
  · rw [hverdict]
    exact .inl ⟨hno, st.inSeq, st.lastTobNs, id, rfl⟩
  · rw [hverdict]
    exact .inr (.inl ⟨hno, inSeq, reason, rfl⟩)
  · -- the tick is admitted, and its place in the feed decides
    rw [hverdict]
    dsimp only
    obtain hlt | heq | hgt := lt_trichotomy tob.mdSeq st.mdSeq
    · refine .inr (.inl ⟨fun h => absurd h.2.2.2.2 (by omega), tob.seq, _, if_pos hlt⟩)
    · refine .inl ⟨fun h => absurd h.2.2.2.2 (by omega), tob.seq, some nowNs,
        fun hnone => (by contradiction), ?_⟩
      rw [if_neg (by omega), if_pos heq]
    · refine .inr (.inr ⟨⟨hrun, hepoch, hseq, hsymbol, hgt⟩, ?_⟩)
      rw [if_neg (by omega), if_neg (by omega)]
      exact ⟨_, rfl⟩

/-- A tick that is accepted becomes the book. -/
theorem Keeps.onTob (h : Keeps book cmds (st, [])) (tob : Tob) (nowNs : ℤ) :
    Keeps (if st.Accepts cfg tob then some tob else book) cmds (st.onTob cfg tob nowNs) := by
  obtain ⟨hno, inSeq, lastTobNs, -, heq⟩ | ⟨hno, inSeq, reason, heq⟩ |
    ⟨hyes, conflatedSeen, heq⟩ := onTob_cases cfg st tob nowNs
  · rw [if_neg hno, heq]
    exact h.count inSeq lastTobNs
  · rw [if_neg hno, heq]
    exact (h.count inSeq st.lastTobNs).stop reason
  · rw [if_pos hyes, heq]
    have hsettled : Settled st cmds := by simpa using h.settled
    have hmoved : Keeps (some tob) cmds
        ({ st with
            inSeq := tob.seq, lastTobNs := some nowNs, conflatedSeen, mdSeq := tob.mdSeq
            bidPx := some tob.bidPx, askPx := some tob.askPx }, []) :=
      .of_settled (hsettled.congr rfl rfl rfl rfl rfl) rfl rfl
    have hbid := hmoved.quote cfg hyes.1 .bid tob.mdSeq
    exact hbid.quote cfg ((quote_frame ..).1.trans hyes.1) .ask tob.mdSeq

/-! ## `on_report` -/

/-- Reconsidering quotes from the book it keeps. -/
theorem Keeps.reconsider (h : Keeps book cmds (st, [])) (cfg : StrategyConfig)
    (hrun : st.stopped = false) (side : Side) : Keeps book cmds (st.reconsider cfg side) := by
  cases book with
  | none =>
    have hbid : st.bidPx = none := h.bid
    rw [Strategy.reconsider, hbid]
    exact h
  | some b =>
    have hbid : st.bidPx = some b.bidPx := h.bid
    have hask : st.askPx = some b.askPx := h.ask
    simp only [Strategy.reconsider, hbid, hask]
    exact h.quote cfg hrun side st.mdSeq

/-- An order leaves the map, with or without a bar. -/
theorem Keeps.retire (h : Keeps book cmds (st, [])) (order : ClientOrder)
    {rejectedPx : Side → Option ℤ}
    (hbar : ∀ side px, rejectedPx side = some px → st.rejectedPx side = some px ∨
      side = sideOf order.clId ∧ st.current side = some order.clId) :
    Keeps book cmds (({ st with rejectedPx } : Strategy).retire order, []) := by
  have hsettled : Settled st cmds := by simpa using h.settled
  refine .of_settled ⟨hsettled.toTidy.retire order hbar, fun hrun o ho hcur => ?_⟩ h.bid h.ask
  rw [current_retire] at hcur
  split_ifs at hcur
  exact hsettled.resting hrun o (mem_retire.mp ho).1 hcur

/-- An order is acknowledged. -/
theorem Keeps.setLive (h : Keeps book cmds (st, [])) {order : ClientOrder}
    (hmem : order ∈ st.orders) (hstate : order.state ≠ .pendingCancel) :
    Keeps book cmds (st.setState order.clId .live, []) := by
  have hsettled : Settled st cmds := by simpa using h.settled
  refine .of_settled ⟨hsettled.toTidy.setLive hmem hstate, fun hrun o ho hcur => ?_⟩ h.bid h.ask
  obtain ⟨o', ho', rfl⟩ := mem_setState.mp ho
  split_ifs at hcur ⊢
  · exact OState.noConfusion
  · exact hsettled.resting hrun o' ho' hcur

/-- So does a report. -/
theorem Keeps.applyReport (h : Keeps book cmds (st, [])) (cfg : StrategyConfig)
    (hrun : st.stopped = false) {order : ClientOrder} (hmem : order ∈ st.orders) (msg : OutMsg) :
    Keeps book cmds (st.applyReport cfg order msg) := by
  cases msg with
  | tob _ => exact h
  | orderAck _ =>
    simp only [Strategy.applyReport]
    split_ifs with hstate
    · have hne : order.state ≠ .pendingCancel := by
        rw [hstate]
        exact OState.noConfusion
      exact (h.setLive hmem hne).reconsider cfg hrun _
    · exact h
  | cancelAck _ => exact h.retire order fun _ _ hpx => .inl hpx
  | fill m =>
    simp only [Strategy.applyReport]
    split_ifs
    · exact h.retire order fun _ _ hpx => .inl hpx
    · exact h
  | reject _ =>
    simp only [Strategy.applyReport]
    split_ifs with hheld
    · -- the bar goes up on the side that the refused order held
      refine h.retire order fun side px hpx => ?_
      by_cases hside : side = sideOf order.clId
      · subst hside
        exact .inr ⟨rfl, hheld⟩
      · rw [Function.update_of_ne hside] at hpx
        exact .inl hpx
    · exact h.retire order fun _ _ hpx => .inl hpx

/-- So does a report of any order. -/
theorem Keeps.onOrderReport (h : Keeps book cmds (st, [])) (cfg : StrategyConfig) (msg : OutMsg) :
    Keeps book cmds (st.onOrderReport cfg msg) := by
  unfold Strategy.onOrderReport
  by_cases hguard : st.stopped = true ∨ msg.epoch ≠ st.epoch
  · rw [if_pos hguard]
    exact h
  rw [if_neg hguard]
  have hrun : st.stopped = false := Bool.eq_false_iff.mpr fun hst => hguard (.inl hst)
  by_cases hseq : msg.seq = st.inSeq + 1
  · have hadvance : st.advanceSeq msg.seq = ({ st with inSeq := msg.seq }, none) :=
      if_neg (not_not.mpr hseq)
    have hcounted := h.count msg.seq st.lastTobNs
    rw [hadvance]
    dsimp only
    split
    · exact hcounted
    · next order hfind =>
      obtain ⟨clId, -, hget⟩ := Option.bind_eq_some_iff.mp hfind
      exact hcounted.applyReport cfg hrun (mem_of_getOrder hget).1 msg
  · have hadvance : st.advanceSeq msg.seq = (_, some _) := if_pos hseq
    rw [hadvance]
    exact h.stop _

/-! ## `on_timer` -/

/-- Cancelling distinct orders that are not being cancelled. -/
theorem Tidy.cancelAll {l : List ClientOrder} (h : Tidy st cmds) (hsub : ∀ o ∈ l, o ∈ st.orders)
    (hstate : ∀ o ∈ l, o.state ≠ .pendingCancel) (hnodup : (l.map ClientOrder.clId).Nodup) :
    Tidy (st.cancelAll l).1 (cmds ++ (st.cancelAll l).2) := by
  induction l generalizing st cmds with
  | nil => rwa [Strategy.cancelAll, List.append_nil]
  | cons order l ih =>
    rw [List.map_cons, List.nodup_cons] at hnodup
    have hfirst := h.cancel (hsub order List.mem_cons_self) (hstate order List.mem_cons_self)
    have hrest := ih hfirst
      (fun o ho => mem_setState.mpr ⟨o, hsub o (List.mem_cons_of_mem _ ho), ?_⟩)
      (fun o ho => hstate o (List.mem_cons_of_mem _ ho)) hnodup.2
    · rwa [List.append_assoc] at hrest
    · -- the later orders are other ones, which the cancel leaves
      rw [if_neg]
      rintro heq
      exact hnodup.1 (heq ▸ List.mem_map.mpr ⟨o, ho, rfl⟩)

/-- What cancelling a list of orders leaves alone, and that it sends nothing new. -/
theorem cancelAll_frame (st : Strategy) (l : List ClientOrder) :
    let r := st.cancelAll l
    r.1.stopped = st.stopped ∧ r.1.bidPx = st.bidPx ∧ r.1.askPx = st.askPx ∧
      ∀ m, .send (.newOrder m) ∉ r.2 := by
  induction l generalizing st with
  | nil => exact ⟨rfl, rfl, rfl, fun _ => List.not_mem_nil⟩
  | cons order l ih =>
    obtain ⟨hstopped, hbid, hask, hnone⟩ := ih (st.cancel order).1
    refine ⟨hstopped, hbid, hask, fun m hmem => ?_⟩
    obtain heq | hmem := List.mem_cons.mp hmem
    · cases heq
    · exact hnone m hmem

/-- The sweep: the strategy stops, and the resting orders are cancelled. -/
theorem Keeps.sweep (h : Keeps book cmds (st, [])) {announced : List Cmd}
    (hcause : st.stopped = true ∧ announced = [] ∨ ∃ reason, announced = [.stopQuoting reason]) :
    let r := ({ st with stopped := true, swept := true } : Strategy).cancelAll st.resting
    Keeps book cmds (r.1, announced ++ r.2) := by
  intro r
  have hsettled : Settled st cmds := by simpa using h.settled
  have hresting : ∀ o ∈ st.resting, o.state ≠ .pendingCancel := by
    intro o ho
    have hstate : o.state = .pendingNew ∨ o.state = .live := by
      simpa [resting] using (List.mem_filter.mp ho).2
    obtain hstate | hstate := hstate <;> rw [hstate] <;> exact OState.noConfusion
  have hswept := (hsettled.toTidy.halt hcause true).cancelAll (l := st.resting)
    (fun o ho => (List.mem_filter.mp ho).1) hresting
    (hsettled.nodup.sublist (List.filter_sublist.map _))
  obtain ⟨hstopped, hbid, hask, hnone⟩ :=
    cancelAll_frame { st with stopped := true, swept := true } st.resting
  refine ⟨?_, hbid.trans h.bid, hask.trans h.ask, fun m hmem => ?_⟩
  · rw [← List.append_assoc]
    exact ⟨hswept, fun hrun => absurd (hstopped.symm.trans hrun) Bool.true_eq_false.mp⟩
  · obtain hbefore | hnow := List.mem_append.mp hmem
    · obtain ⟨-, rfl⟩ | ⟨reason, rfl⟩ := hcause
      · cases hbefore
      · cases List.mem_singleton.mp hbefore
    · exact absurd hnow (hnone m)

/-- The timer keeps the book. -/
theorem Keeps.onTimer (h : Keeps book cmds (st, [])) (cfg : StrategyConfig) (nowNs : ℤ) :
    Keeps book cmds (st.onTimer cfg nowNs) := by
  unfold Strategy.onTimer
  split
  · exact h
  · next last _ =>
    by_cases hswept : st.swept = true
    · rw [if_pos hswept]
      exact h
    rw [if_neg hswept]
    by_cases hage : nowNs - last ≤ cfg.staleNs
    · simp only [if_pos hage]
      exact h
    simp only [if_neg hage]
    refine h.sweep ?_
    -- a strategy that has stopped for another reason announces no second one
    by_cases hst : st.stopped = true
    · exact .inl ⟨hst, if_pos hst⟩
    · exact .inr ⟨_, if_neg hst⟩

/-! ## `on_connect` and `on_disconnect` -/

/-- A disconnect forgets it. -/
theorem Keeps.onDisconnect (h : Keeps book cmds (st, [])) : Keeps none cmds st.onDisconnect := by
  have hstopped := (h.stop (ascii "disconnect")).settled
  refine ⟨⟨⟨List.nodup_nil, hstopped.orderly, hstopped.issued, ?_, ?_, ?_, ?_, ?_, hstopped.halted⟩,
    ?_⟩, rfl, rfl, ?_⟩
  · exact fun o ho => absurd ho List.not_mem_nil
  · exact fun o ho => absurd ho List.not_mem_nil
  · exact fun o ho => absurd ho List.not_mem_nil
  · exact fun side clId hcur => by contradiction
  · exact fun _ _ _ => rfl
  · exact fun _ o ho => absurd ho List.not_mem_nil
  · exact fun m hmem => by cases List.mem_singleton.mp hmem

/-- A new strategy has none. -/
theorem Keeps.fresh (epoch : ℕ) : Keeps none [] ({ epoch }, []) := by
  refine .of_settled ⟨⟨List.nodup_nil, .nil, ?_, ?_, ?_, ?_, ?_, ?_, ?_⟩, ?_⟩ rfl rfl
  · exact fun _ hmem => absurd hmem List.not_mem_nil
  · exact fun o ho => absurd ho List.not_mem_nil
  · exact fun o ho => absurd ho List.not_mem_nil
  · exact fun o ho => absurd ho List.not_mem_nil
  · exact fun side clId hcur => by contradiction
  · exact fun _ _ _ => rfl
  · exact ⟨fun hst => (by contradiction), fun ⟨_, hmem⟩ => absurd hmem List.not_mem_nil⟩
  · exact fun _ o ho => absurd ho List.not_mem_nil

end Strategy

namespace Watched

variable {cfg : StrategyConfig}

/-- Between callbacks. -/
def Good (w : Watched) : Prop := Strategy.Keeps w.book w.cmds (w.strategy, [])

/-- What a callback gives, of any strategy that is good. -/
theorem Good.call {w : Watched} (h : w.Good) (cfg : StrategyConfig) (call : StrategyCall) :
    let w' := (w.step cfg call).1
    Strategy.Keeps w'.book (match call with
      | .onConnect _ => []
      | _ => w.cmds) (w'.strategy, (w.step cfg call).2) := by
  cases call with
  | onConnect epoch => exact .fresh epoch
  | onTob tob nowNs => exact Strategy.Keeps.onTob h tob nowNs
  | onTimer nowNs => exact Strategy.Keeps.onTimer h cfg nowNs
  | onDisconnect => exact Strategy.Keeps.onDisconnect h
  | onReport msg nowNs =>
    cases msg with
    | tob tob => exact Strategy.Keeps.onTob h tob nowNs
    | orderAck m => exact Strategy.Keeps.onOrderReport h cfg (.orderAck m)
    | cancelAck m => exact Strategy.Keeps.onOrderReport h cfg (.cancelAck m)
    | fill m => exact Strategy.Keeps.onOrderReport h cfg (.fill m)
    | reject m => exact Strategy.Keeps.onOrderReport h cfg (.reject m)

/-- Every call keeps what is watched good. -/
theorem Good.step {w : Watched} (h : w.Good) (call : StrategyCall) : (w.step cfg call).1.Good := by
  have hcall := h.call cfg call
  exact .of_settled hcall.settled hcall.bid hcall.ask

/-- So it is good along every run. -/
theorem good_run (cfg : StrategyConfig) (epoch : ℕ) (calls : List StrategyCall) :
    (run cfg epoch calls).1.Good :=
  Mealy.run_induct (step cfg) (P := fun w _ => w.Good) (s := { strategy := { epoch } })
    (Strategy.Keeps.fresh epoch) (fun _ _ call h => h.step call) calls

/-! ## Main result -/

/-- The orders of a side that are not being cancelled. -/
def openOn (w : Watched) (side : Side) : List ClientOrder :=
  w.strategy.orders.filter fun o => sideOf o.clId = side ∧ o.state ≠ .pendingCancel

/-- The invariant of the strategy and of the commands of its connection. -/
structure Disciplined (w : Watched) : Prop where
  one_open : ∀ side, (w.openOn side).length ≤ 1
  named : ∀ side, ∀ o ∈ w.openOn side, w.strategy.current side = some o.clId
  resting : w.strategy.stopped = false →
    ∀ side order, w.strategy.currentOrder side = some order → order.state ≠ .pendingCancel
  barred : ∀ side px, w.strategy.rejectedPx side = some px → w.strategy.current side = none
  fresh : (newIds w.cmds).Nodup
  once : (cancelIds w.cmds).Nodup
  sent_before : ∀ before m after,
    w.cmds = before ++ .send (.cancelOrder m) :: after → m.clId ∈ newIds before
  /-- The latch is set exactly by a stop that the connection has announced. -/
  halted : w.strategy.stopped = true ↔ Stops w.cmds
  silent_after : ∀ before reason after,
    w.cmds = before ++ .stopQuoting reason :: after → newIds after = []

/-- An order is open unless its cancel is on its way. -/
theorem mem_openOn {w : Watched} {side : Side} {o : ClientOrder} :
    o ∈ w.openOn side ↔
      o ∈ w.strategy.orders ∧ sideOf o.clId = side ∧ o.state ≠ .pendingCancel := by
  simp [openOn]

/-- The open order of a side is its current one. -/
theorem Good.current_of_open {w : Watched} (h : w.Good) {side : Side} {o : ClientOrder}
    (ho : o ∈ w.openOn side) : w.strategy.current side = some o.clId := by
  obtain ⟨hmem, rfl, hne⟩ := mem_openOn.mp ho
  exact h.settled.named o hmem hne

/-- The open orders of a side all have the id that the side's current order has. -/
theorem Good.length_openOn_le {w : Watched} (h : w.Good) (side : Side) :
    (w.openOn side).length ≤ 1 := by
  have hnodup : ((w.openOn side).map ClientOrder.clId).Nodup :=
    h.settled.nodup.sublist (List.filter_sublist.map _)
  match hopen : w.openOn side with
  | [] => exact Nat.zero_le 1
  | [_] => exact le_rfl
  | o :: o' :: rest =>
    have hcur : w.strategy.current side = some o.clId := h.current_of_open (by simp [hopen])
    have hcur' : w.strategy.current side = some o'.clId := h.current_of_open (by simp [hopen])
    have heq : o.clId = o'.clId := Option.some.inj (hcur.symm.trans hcur')
    rw [hopen, List.map_cons, List.map_cons, heq] at hnodup
    exact absurd List.mem_cons_self (List.nodup_cons.mp hnodup).1

theorem Good.disciplined {w : Watched} (h : w.Good) : w.Disciplined := by
  have hsettled : w.strategy.Settled w.cmds := by simpa using h.settled
  constructor
  case one_open => exact h.length_openOn_le
  case named => exact fun _ _ ho => h.current_of_open ho
  case resting =>
    intro hrun side order horder
    obtain ⟨hmem, hcur⟩ := Strategy.mem_of_currentOrder horder
    have hside := hsettled.current side _ hcur
    exact hsettled.resting hrun order hmem (hside ▸ hcur)
  case barred => exact hsettled.barred
  case fresh => exact hsettled.orderly.nodup_newIds
  case once => exact hsettled.orderly.nodup_cancelIds
  case sent_before => exact fun _ _ _ hcut => hsettled.orderly.sent_before hcut
  case halted => exact hsettled.halted
  case silent_after => exact fun _ _ _ hcut => hsettled.orderly.silent_after hcut

/-- Whatever the callbacks and their messages, the invariant holds after each of them, and the new
orders of the next one quote at the last accepted book. -/
theorem run_disciplined (cfg : StrategyConfig) (epoch : ℕ) (calls : List StrategyCall) :
    let w := (run cfg epoch calls).1
    w.Disciplined ∧ ∀ call m, .send (.newOrder m) ∈ (w.step cfg call).2 →
      ∃ book ∈ (w.step cfg call).1.book, ∃ side, m.Quotes side book := by
  intro w
  have hgood : w.Good := good_run cfg epoch calls
  exact ⟨hgood.disciplined, fun call => (hgood.call cfg call).priced⟩

end Watched

end MarketMaker
