import MarketMaker.Native.Overflow
import Mathlib.Tactic.Ring

/-!
# The quotes of the native market maker

When `on_tob` computes its targets without overflow, and when the orders it posts have prices that
can trade. The book is only asked to have positive prices that do not cross; the spread and the skew
then carry the bid below zero where prices are low, and the sum of the prices past an `int64` where
they are high (`Quotable`).

After a call that overflows there is no state. `QuotesSoundly.defined` forbids that of `on_tob`; a
fill that overflows (`FillFits`) ends the run, and nothing is said of the calls after it. -/

namespace MarketMaker

namespace Native

open NativeMarketMaker

/-- What a call decides is sound: a bid is positive and below the ask of the book, and an ask is
positive and above its bid. -/
structure SoundDecision (call : Call) (d : StrategyDecision) : Prop where
  bid : ∀ o, d.bid.order = some o → ∃ tob nowNs, call = .tob tob nowNs ∧
    0 < o.px.toInt ∧ o.px.toInt < tob.askPx.toInt
  ask : ∀ o, d.ask.order = some o → ∃ tob nowNs, call = .tob tob nowNs ∧
    0 < o.px.toInt ∧ tob.bidPx.toInt < o.px.toInt

/-- Both sides are active only at prices that are the whole spread apart. -/
def Spread (cfg : StrategyConfig) (s : NativeMarketMaker) : Prop :=
  (s.active .bid).clId ≠ 0 → (s.active .ask).clId ≠ 0 →
    (s.active .ask).px = (s.active .bid).px + 2 * cfg.halfSpread.toInt

/-- What is to hold along a run. -/
structure QuotesSoundly (cfg : StrategyConfig) (calls : List Call) : Prop where
  defined : ∀ pre tob nowNs w, pre ++ [.tob tob nowNs] <+: calls → run cfg pre = some w →
    w.self.onTob cfg tob nowNs ≠ none
  decisions : ∀ w call w', Takes cfg calls w call w' →
    ∀ s d, Native.step cfg w.self call = some (s, d) → SoundDecision call d
  spread : ∀ w, Visits cfg calls w → Spread cfg w.self

/-- The book and the position let `on_tob` compute its targets, and a bid that it may post is
positive. -/
structure Quotable (cfg : StrategyConfig) (position : ℤ) (tob : ShmTopOfBook) : Prop where
  limit : -cfg.maxPosition.toInt < 2 ^ 63
  sum : tob.bidPx.toInt + tob.askPx.toInt < 2 ^ 63
  doubled : InInt64 (position * 2)
  above : mid tob + cfg.halfSpread.toInt < 2 ^ 63
  high : mid tob + cfg.halfSpread.toInt - skew position < 2 ^ 63
  low : -2 ^ 63 ≤ mid tob - cfg.halfSpread.toInt - skew position
  positive : position < cfg.maxPosition.toInt → 0 < mid tob - cfg.halfSpread.toInt - skew position

variable {cfg : StrategyConfig} {calls : List Call} {w w' : World}

/-! ## The targets -/

/-- The prices of a book that is quoted on. -/
theorem validBook_prices {tob : ShmTopOfBook} (h : validBook tob = true) :
    0 < tob.bidPx.toInt ∧ tob.bidPx.toInt < tob.askPx.toInt := by
  rw [validBook] at h
  simp only [Bool.not_eq_true', Bool.or_eq_false_iff, decide_eq_false_iff_not] at h
  omega

/-- A skew is at most a fifth of the range. -/
theorem skew_bounds {position : ℤ} (h : InInt64 (position * 2)) :
    -2 ^ 61 ≤ skew position ∧ skew position ≤ 2 ^ 61 := by
  obtain ⟨hlow, hhigh⟩ := h
  rcases le_total 0 (position * 2) with hsign | hsign
  · rw [skew, Int.tdiv_eq_ediv_of_nonneg hsign]
    omega
  · rw [skew, ← neg_neg (position * 2), Int.neg_tdiv, Int.tdiv_eq_ediv_of_nonneg (by omega)]
    omega

/-- `on_tob` is defined on a book that it quotes on exactly when these fit. -/
theorem onTob_defined_iff {s : NativeMarketMaker} {tob : ShmTopOfBook} {nowNs : Int64}
    (hspread : 0 < cfg.halfSpread.toInt) (hbook : validBook tob = true) :
    s.onTob cfg tob nowNs ≠ none ↔
      -cfg.maxPosition.toInt < 2 ^ 63 ∧ tob.bidPx.toInt + tob.askPx.toInt < 2 ^ 63 ∧
        InInt64 (s.position * 2) ∧ mid tob + cfg.halfSpread.toInt < 2 ^ 63 ∧
        mid tob + cfg.halfSpread.toInt - skew s.position < 2 ^ 63 ∧
        -2 ^ 63 ≤ mid tob - cfg.halfSpread.toInt - skew s.position := by
  have hprices := validBook_prices hbook
  have hmid : mid tob = (tob.bidPx.toInt + tob.askPx.toInt) / 2 :=
    Int.tdiv_eq_ediv_of_nonneg (by omega)
  have hspread' := cfg.halfSpread.toInt_lt
  have hmax := cfg.maxPosition.toInt_lt
  rw [onTob_ne_none_iff]
  constructor
  · intro h
    obtain ⟨hsum, hdoubled, -, hbid, habove, hask, hlimit⟩ := h hbook
    exact ⟨hlimit.2, hsum.2, hdoubled, habove.2, hask.2, hbid.1⟩
  · rintro ⟨hlimit, hsum, hdoubled, habove, hask, hbid⟩ -
    -- the other bounds follow, since both prices and the spread are positive
    have hskew := skew_bounds hdoubled
    exact ⟨⟨by omega, hsum⟩, hdoubled, ⟨by omega, by omega⟩, ⟨hbid, by omega⟩, ⟨by omega, habove⟩,
      ⟨by omega, hask⟩, ⟨by omega, hlimit⟩⟩

/-! ## One side -/

/-- What a side posts is allowed, and has the target for its price. -/
theorem order_manage {s : NativeMarketMaker} {side : Side} {allowed : Bool} {target : ℤ}
    {mdSeq : UInt64} {o : ShmNewOrder}
    (h : (s.manage cfg side allowed target mdSeq).2.order = some o) :
    allowed = true ∧ o.px = Int64.ofInt target := by
  cases allowed with
  | false => exact by contradiction
  | true =>
    rw [manage] at h
    simp only [if_true] at h
    split_ifs at h <;> cases h <;> exact ⟨rfl, rfl⟩

/-- A side that may quote posts an order, unless one is already active at the target. -/
theorem manage_allowed (s : NativeMarketMaker) (side : Side) (target : ℤ) (mdSeq : UInt64) :
    (∃ o, (s.manage cfg side true target mdSeq).2.order = some o ∧ o.px = Int64.ofInt target) ∨
      (s.active side).clId ≠ 0 ∧ (s.active side).px = target := by
  rw [manage]
  simp only [if_true]
  by_cases hpx : (s.active side).px ≠ target
  · -- the slot is empty after the cancel
    have hempty : ((s.pull side).1.active side).clId = 0 :=
      (clId_pulled ⟨s, {}⟩ side side).trans (if_pos rfl)
    rw [if_pos hpx, if_pos hempty]
    exact Or.inl ⟨_, rfl, rfl⟩
  · rw [if_neg hpx]
    by_cases hempty : (s.active side).clId = 0
    · rw [if_pos hempty]
      exact Or.inl ⟨_, rfl, rfl⟩
    · exact Or.inr ⟨hempty, not_not.mp hpx⟩

/-- A side that is active after it was managed is active at the target. -/
theorem px_managed {side : Side} {allowed : Bool} {target : ℤ} {mdSeq : UInt64}
    (h : ((w.managed cfg side allowed target mdSeq).self.active side).clId ≠ 0) :
    ((w.managed cfg side allowed target mdSeq).self.active side).px = target := by
  rcases w.managed_cases cfg side allowed target mdSeq with ⟨hpx, heq⟩ | heq | ⟨v, -, -, -, heq⟩
  · rwa [heq]
  · rw [heq, clId_pulled, if_pos rfl] at h
    exact absurd rfl h
  · rw [heq, active_posted, if_pos rfl]

/-- Such a side may quote. -/
theorem allowed_of_active_managed {side : Side} {allowed : Bool} {target : ℤ} {mdSeq : UInt64}
    (h : ((w.managed cfg side allowed target mdSeq).self.active side).clId ≠ 0) :
    allowed = true := by
  cases allowed with
  | false => exact absurd ((clId_pulled w side side).trans (if_pos rfl)) h
  | true => rfl

/-- The other side stays as it is. -/
theorem active_managed_of_ne {side side' : Side} (hside : side' ≠ side) (allowed : Bool)
    (target : ℤ)
    (mdSeq : UInt64) :
    (w.managed cfg side allowed target mdSeq).self.active side' = w.self.active side' := by
  have hpulled : (w.pulled side).self.active side' = w.self.active side' := by
    rw [World.pulled, pull]
    split_ifs
    · exact Function.update_of_ne hside _ _
    · rfl
  rcases w.managed_cases cfg side allowed target mdSeq with ⟨-, heq⟩ | heq | ⟨v, hv, -, -, heq⟩
  · rw [heq]
  · rw [heq, hpulled]
  · rw [heq, active_posted, if_neg hside]
    rcases hv with rfl | rfl
    · rfl
    · exact hpulled

/-! ## One book -/

/-- On a book that it does not quote on, `on_tob` posts nothing. -/
theorem onTob_invalid {s s' : NativeMarketMaker} {d : StrategyDecision} {tob : ShmTopOfBook}
    {nowNs : Int64} (hbook : validBook tob = false) (h : s.onTob cfg tob nowNs = some (s', d)) :
    d.bid.order = none ∧ d.ask.order = none := by
  rw [onTob, hbook] at h
  cases h
  exact ⟨rfl, rfl⟩

/-- On a book that it quotes on, `on_tob` manages the bid and then the ask. -/
theorem onTob_valid {s s' : NativeMarketMaker} {d : StrategyDecision} {tob : ShmTopOfBook}
    {nowNs : Int64} (hbook : validBook tob = true) (h : s.onTob cfg tob nowNs = some (s', d)) :
    ∃ bid ask, targets cfg s.position tob = some (bid, ask) ∧
      d.bid = ((s.noted tob nowNs).manage cfg .bid
        (s.position < cfg.maxPosition.toInt && bid < tob.askPx.toInt) bid tob.mdSeq).2 ∧
      ∃ (v : NativeMarketMaker) (allowed : Bool), (allowed = true → tob.bidPx.toInt < ask) ∧
        d.ask = (v.manage cfg .ask allowed ask tob.mdSeq).2 := by
  rw [onTob, hbook] at h
  obtain ⟨⟨bid, ask⟩, htargets, h⟩ := Option.bind_eq_some_iff.mp h
  obtain ⟨-, h⟩ := checked_bind_eq_some.mp h
  cases h
  refine ⟨bid, ask, htargets, rfl, _, _, fun hallowed => ?_, rfl⟩
  rw [Bool.and_eq_true, decide_eq_true_eq, decide_eq_true_eq] at hallowed
  exact hallowed.2

/-- A decision to post nothing is sound. -/
theorem SoundDecision.of_none {call : Call} {d : StrategyDecision} (hbid : d.bid.order = none)
    (hask : d.ask.order = none) : SoundDecision call d := by
  refine ⟨fun o ho => ?_, fun o ho => ?_⟩
  · rw [hbid] at ho
    exact by contradiction
  · rw [hask] at ho
    exact by contradiction

/-- A decision is sound if a bid that may be posted is positive: an ask is above the bid of the
book, which is. -/
theorem sound_onTob {s s' : NativeMarketMaker} {d : StrategyDecision} {tob : ShmTopOfBook}
    {nowNs : Int64} (h : s.onTob cfg tob nowNs = some (s', d))
    (hquotable : validBook tob = true → Quotable cfg s.position tob) :
    SoundDecision (.tob tob nowNs) d := by
  cases hbook : validBook tob with
  | false =>
    obtain ⟨hbid, hask⟩ := onTob_invalid hbook h
    exact .of_none hbid hask
  | true =>
    obtain ⟨bid, ask, htargets, hbid, v, allowed, hallowed, hask⟩ := onTob_valid hbook h
    obtain ⟨⟨-, -, -, hbidRange, -, haskRange⟩, hprices⟩ := targets_eq_some.mp htargets
    cases hprices
    have hpositive := validBook_prices hbook
    constructor
    · intro o ho
      rw [hbid] at ho
      obtain ⟨hmay, hpx⟩ := order_manage ho
      rw [Bool.and_eq_true, decide_eq_true_eq, decide_eq_true_eq] at hmay
      refine ⟨tob, nowNs, rfl, ?_⟩
      rw [hpx, toInt_ofInt hbidRange]
      exact ⟨(hquotable hbook).positive hmay.1, hmay.2⟩
    · intro o ho
      rw [hask] at ho
      obtain ⟨hmay, hpx⟩ := order_manage ho
      refine ⟨tob, nowNs, rfl, ?_⟩
      rw [hpx, toInt_ofInt haskRange]
      exact ⟨hpositive.1.trans (hallowed hmay), hallowed hmay⟩

/-- Both targets are computed from one mid and one skew. -/
theorem spread_tob {tob : ShmTopOfBook} {nowNs : Int64}
    (hstep : w.step cfg (.tob tob nowNs) = some w') : Spread cfg w'.self := by
  intro hbid hask
  cases hbook : validBook tob with
  | false =>
    rw [World.step_invalid hbook] at hstep
    cases hstep
    rw [clId_pulled, if_pos rfl] at hask
    exact absurd rfl hask
  | true =>
    rw [World.step_valid hbook] at hstep
    obtain ⟨⟨bid, ask⟩, htargets, hstep⟩ := Option.bind_eq_some_iff.mp hstep
    obtain ⟨low, hlow, hstep⟩ := Option.bind_eq_some_iff.mp hstep
    cases hstep
    have hother : Side.bid ≠ Side.ask := fun h => by contradiction
    rw [active_managed_of_ne hother] at hbid ⊢
    rw [px_managed hask, px_managed hbid]
    obtain ⟨-, hprices⟩ := targets_eq_some.mp htargets
    cases hprices
    ring

/-- Slots that are only emptied keep the spread. -/
theorem Spread.of_emptied {s s' : NativeMarketMaker} (h : Spread cfg s)
    (hid : ∀ side, (s'.active side).clId ≠ 0 → (s.active side).clId ≠ 0)
    (hpx : ∀ side, (s'.active side).px = (s.active side).px) : Spread cfg s' := by
  intro hbid hask
  rw [hpx, hpx]
  exact h (hid .bid hbid) (hid .ask hask)

/-- The price of an active bid is positive. -/
def PositiveBid (s : NativeMarketMaker) : Prop :=
  (s.active .bid).clId ≠ 0 → 0 < (s.active .bid).px

/-- A call that only clears sides keeps the bid positive. -/
theorem PositiveBid.of_emptied {s s' : NativeMarketMaker} (h : PositiveBid s)
    (hid : ∀ side, (s'.active side).clId ≠ 0 → (s.active side).clId ≠ 0)
    (hpx : ∀ side, (s'.active side).px = (s.active side).px) : PositiveBid s' := by
  intro hbid
  rw [hpx]
  exact h (hid .bid hbid)

/-- A bid that may be quoted is either posted or already active, so that sound decisions make its
target positive. -/
theorem target_positive {s s' : NativeMarketMaker} {d : StrategyDecision} {tob : ShmTopOfBook}
    {nowNs : Int64} {prices : ℤ × ℤ} (hpositive : PositiveBid s) (hbook : validBook tob = true)
    (h : s.onTob cfg tob nowNs = some (s', d)) (hsound : SoundDecision (.tob tob nowNs) d)
    (htargets : targets cfg s.position tob = some prices)
    (hmay : s.position < cfg.maxPosition.toInt ∧ prices.1 < tob.askPx.toInt) : 0 < prices.1 := by
  obtain ⟨bid, ask, htargets', hbid, -⟩ := onTob_valid hbook h
  rw [htargets] at htargets'
  cases htargets'
  have hallowed : (decide (s.position < cfg.maxPosition.toInt) &&
      decide (bid < tob.askPx.toInt)) = true := by
    rw [Bool.and_eq_true, decide_eq_true_eq, decide_eq_true_eq]
    exact hmay
  rw [hallowed] at hbid
  rcases @manage_allowed cfg (s.noted tob nowNs) .bid bid tob.mdSeq with
    ⟨o, ho, hpx⟩ | ⟨hactive, hpx⟩
  · obtain ⟨-, -, -, hpos, -⟩ := hsound.bid o (hbid ▸ ho)
    obtain ⟨⟨-, -, -, hrange, -⟩, hprices⟩ := targets_eq_some.mp htargets
    cases hprices
    rwa [hpx, toInt_ofInt hrange] at hpos
  · exact hpx ▸ hpositive hactive

/-- A book whose decision is sound leaves a positive bid behind. -/
theorem PositiveBid.tob {tob : ShmTopOfBook} {nowNs : Int64} (h : PositiveBid w.self)
    (hstep : w.step cfg (.tob tob nowNs) = some w')
    (hsound : ∀ s d, w.self.onTob cfg tob nowNs = some (s, d) → SoundDecision (.tob tob nowNs) d) :
    PositiveBid w'.self := by
  obtain ⟨⟨s, d⟩, honTob, -⟩ := Option.map_eq_some_iff.mp hstep
  intro hactive
  cases hbook : validBook tob with
  | false =>
    rw [World.step_invalid hbook] at hstep
    cases hstep
    rw [clId_pulled, if_neg (fun h => by contradiction), clId_pulled, if_pos rfl] at hactive
    exact absurd rfl hactive
  | true =>
    rw [World.step_valid hbook] at hstep
    obtain ⟨⟨bid, ask⟩, htargets, hstep⟩ := Option.bind_eq_some_iff.mp hstep
    obtain ⟨low, hlow, hstep⟩ := Option.bind_eq_some_iff.mp hstep
    cases hstep
    have hother : Side.bid ≠ Side.ask := fun h => by contradiction
    rw [active_managed_of_ne hother] at hactive ⊢
    rw [px_managed hactive]
    refine target_positive h hbook honTob (hsound s d honTob) htargets ?_
    have hallowed := allowed_of_active_managed hactive
    rwa [Bool.and_eq_true, decide_eq_true_eq, decide_eq_true_eq] at hallowed

/-! ## Runs -/

/-- What a call other than `on_tob` leaves of the slots. -/
theorem emptied_step {call : Call} (hcall : ∀ tob nowNs, call ≠ .tob tob nowNs)
    (hstep : w.step cfg call = some w') :
    (∀ side, (w'.self.active side).clId ≠ 0 → (w.self.active side).clId ≠ 0) ∧
      ∀ side, (w'.self.active side).px = (w.self.active side).px := by
  cases call with
  | tob tob nowNs => exact absurd rfl (hcall tob nowNs)
  | ack ack =>
    cases hstep
    exact ⟨fun side h => h, fun side => rfl⟩
  | fill fill =>
    rw [World.step_fill hstep]
    exact ⟨fun side h => clId_emptied_of_ne_zero h ▸ h, fun side => px_emptied _ _ side⟩
  | reject reject =>
    rw [World.step_reject] at hstep
    cases hstep
    exact ⟨fun side h => clId_emptied_of_ne_zero h ▸ h, fun side => px_emptied _ _ side⟩
  | cancelAll =>
    rw [World.step_cancelAll] at hstep
    cases hstep
    refine ⟨fun side h => ?_, fun side => by rw [px_pulled, px_pulled]⟩
    rw [clId_pulled, clId_pulled] at h
    cases side <;> exact absurd rfl h

/-- Only `on_tob` posts. -/
theorem sound_step {call : Call} (hcall : ∀ tob nowNs, call ≠ .tob tob nowNs)
    {s s' : NativeMarketMaker} {d : StrategyDecision} (h : Native.step cfg s call = some (s', d)) :
    SoundDecision call d := by
  have hnone : d.bid.order = none ∧ d.ask.order = none := by
    cases call with
    | tob tob nowNs => exact absurd rfl (hcall tob nowNs)
    | ack ack =>
      cases h
      exact ⟨rfl, rfl⟩
    | fill fill =>
      obtain ⟨s', -, heq⟩ := Option.map_eq_some_iff.mp h
      cases heq
      exact ⟨rfl, rfl⟩
    | reject reject =>
      cases h
      exact ⟨rfl, rfl⟩
    | cancelAll =>
      cases h
      exact ⟨rfl, rfl⟩
  exact .of_none hnone.1 hnone.2

/-- Along a run all of this holds exactly when every book that is quoted on allows it. -/
theorem run_quotesSoundly_iff (cfg : StrategyConfig) (calls : List Call)
    (hspread : 0 < cfg.halfSpread.toInt) :
    QuotesSoundly cfg calls ↔
      ∀ pre tob nowNs w, pre ++ [.tob tob nowNs] <+: calls → run cfg pre = some w →
        validBook tob = true → Quotable cfg w.self.position tob := by
  constructor
  · intro h pre tob nowNs w hpre hrun hbook
    have hpositive : ∀ w, Visits cfg calls w → PositiveBid w.self := by
      refine visits_induct (fun hactive => absurd rfl hactive) fun w call w' htakes hw => ?_
      obtain ⟨-, -, -, hstep⟩ := id htakes
      by_cases hcall : ∃ tob nowNs, call = .tob tob nowNs
      · obtain ⟨tob, nowNs, rfl⟩ := hcall
        exact hw.tob hstep fun s d => h.decisions w _ w' htakes s d
      · obtain ⟨hid, hpx⟩ := emptied_step (fun tob nowNs heq => hcall ⟨tob, nowNs, heq⟩) hstep
        exact hw.of_emptied hid hpx
    have hdefined := h.defined pre tob nowNs w hpre hrun
    obtain ⟨hlimit, hsum, hdoubled, habove, hhigh, hlow⟩ :=
      (onTob_defined_iff hspread hbook).mp hdefined
    refine ⟨hlimit, hsum, hdoubled, habove, hhigh, hlow, fun hmax => ?_⟩
    obtain ⟨⟨s, d⟩, honTob⟩ := Option.ne_none_iff_exists'.mp hdefined
    have htakes : Takes cfg calls w (.tob tob nowNs) ⟨s, w.trace.record (.tob tob nowNs) d⟩ :=
      ⟨pre, hpre, hrun, congrArg (Option.map _) honTob⟩
    obtain ⟨bid, ask, htargets, -⟩ := onTob_valid hbook honTob
    obtain ⟨-, hprices⟩ := targets_eq_some.mp htargets
    have hbid := congrArg Prod.fst hprices
    dsimp only at hbid
    rw [← hbid]
    -- a target that is not positive is below the ask, and so may be quoted
    by_contra hneg
    have hbelow := validBook_prices hbook
    exact hneg (target_positive (hpositive w htakes.visits) hbook honTob
      (h.decisions w _ _ htakes s d honTob) htargets ⟨hmax, by omega⟩)
  · intro h
    refine ⟨fun pre tob nowNs w hpre hrun => ?_, fun w call w' htakes s d hstep => ?_, ?_⟩
    · cases hbook : validBook tob with
      | false =>
        rw [onTob, hbook]
        exact fun heq => by contradiction
      | true =>
        obtain ⟨hlimit, hsum, hdoubled, habove, hhigh, hlow, -⟩ := h pre tob nowNs w hpre hrun hbook
        exact (onTob_defined_iff hspread hbook).mpr ⟨hlimit, hsum, hdoubled, habove, hhigh, hlow⟩
    · by_cases hcall : ∃ tob nowNs, call = .tob tob nowNs
      · obtain ⟨tob, nowNs, rfl⟩ := hcall
        obtain ⟨pre, hpre, hrun, -⟩ := htakes
        exact sound_onTob hstep (h pre tob nowNs w hpre hrun)
      · exact sound_step (fun tob nowNs heq => hcall ⟨tob, nowNs, heq⟩) hstep
    · refine visits_induct (fun hbid => absurd rfl hbid) fun w call w' htakes hw => ?_
      obtain ⟨-, -, -, hstep⟩ := htakes
      by_cases hcall : ∃ tob nowNs, call = .tob tob nowNs
      · obtain ⟨tob, nowNs, rfl⟩ := hcall
        exact spread_tob hstep
      · obtain ⟨hid, hpx⟩ := emptied_step (fun tob nowNs heq => hcall ⟨tob, nowNs, heq⟩) hstep
        exact hw.of_emptied hid hpx

/-- One book. -/
def bookAt (bid ask : Int64) : List Call :=
  [.tob { mdSeq := 1, bidPx := bid, bidQty := 10, askPx := ask, askQty := 10 } 1]

/-- A book at 500000 and 500020 is quoted soundly. -/
theorem run_quotesSoundly_high : QuotesSoundly {} (bookAt 500000 500020) := by
  refine (run_quotesSoundly_iff {} (bookAt 500000 500020) (by decide)).mpr ?_
  intro pre tob nowNs w hpre hrun hbook
  obtain ⟨rest, hrest⟩ := hpre
  cases pre with
  | nil =>
    cases hrest
    cases hrun
    exact ⟨by decide, by decide, by decide, by decide, by decide, by decide, by decide⟩
  | cons call pre =>
    have hlength := congrArg List.length hrest
    simp only [List.length_append, List.length_cons, List.length_nil, bookAt] at hlength
    omega

/-- A book at 1 and 10 with a half spread of 10 gets a bid at -5. -/
theorem run_quotesSoundly_low :
    ¬∀ (cfg : StrategyConfig) (calls : List Call), 0 < cfg.halfSpread.toInt →
      QuotesSoundly cfg calls := by
  intro h
  have hsound := (h {} (bookAt 1 10) (by decide)).decisions _ _ _
    ⟨[], List.prefix_rfl, rfl, rfl⟩ _ _ rfl
  obtain ⟨tob, nowNs, -, hpos, -⟩ := hsound.bid _ rfl
  exact absurd hpos (by decide)

end Native

end MarketMaker
