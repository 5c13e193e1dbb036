import MarketMaker.Native.Ledger

/-!
# The signed arithmetic of the native market maker

Which results a call computes in an `int64`, and that it is defined exactly when all of them are one
(`CallFits`): the targets of `on_tob` on a book that is quoted on, and what `on_fill` adds up for
the slot in which it finds the id of the fill. -/

namespace MarketMaker

namespace Native

open NativeMarketMaker

/-- The mid price of a book. -/
def mid (tob : ShmTopOfBook) : ℤ := (tob.bidPx.toInt + tob.askPx.toInt).tdiv 2

/-- What a position takes off both targets. -/
def skew (position : ℤ) : ℤ := (position * 2).tdiv 10

/-- What `on_tob` computes on a book that it quotes on is an `int64`. -/
structure TargetsFit (cfg : StrategyConfig) (position : ℤ) (tob : ShmTopOfBook) : Prop where
  sum : InInt64 (tob.bidPx.toInt + tob.askPx.toInt)
  doubled : InInt64 (position * 2)
  bidBase : InInt64 (mid tob - cfg.halfSpread.toInt)
  bid : InInt64 (mid tob - cfg.halfSpread.toInt - skew position)
  askBase : InInt64 (mid tob + cfg.halfSpread.toInt)
  ask : InInt64 (mid tob + cfg.halfSpread.toInt - skew position)
  limit : InInt64 (-cfg.maxPosition.toInt)

/-- What `on_fill` computes for the slot of a side is an `int64`. -/
structure FillFits (s : NativeMarketMaker) (side : Side) (fill : ShmOrderFill) : Prop where
  position : InInt64 (s.position + sign (some side) * fill.fillQty.toInt)
  notional : InInt64 (fill.fillPx.toInt * fill.fillQty.toInt)
  realizedPnl : InInt64
    (s.realizedPnl - sign (some side) * (fill.fillPx.toInt * fill.fillQty.toInt))

/-- The signed arithmetic of a call stays within an `int64`. -/
def CallFits (cfg : StrategyConfig) (s : NativeMarketMaker) : Call → Prop
  | .tob tob _ => validBook tob = true → TargetsFit cfg s.position tob
  | .fill fill => ∀ side, matched s fill.clId = some side → FillFits s side fill
  | _ => True

variable {cfg : StrategyConfig} {s : NativeMarketMaker}

/-- A checked result is used only if it is an `int64`. -/
theorem checked_bind_eq_some {α : Type} {z : ℤ} {f : ℤ → Option α} {a : α} :
    (checked z).bind f = some a ↔ InInt64 z ∧ f z = some a := by
  rw [checked]
  split_ifs with h
  · exact (and_iff_right h).symm
  · exact iff_of_false (fun heq => by contradiction) fun heq => h heq.1

/-- What follows a check is defined if the result is an `int64` and the rest is defined. -/
theorem checked_bind_ne_none {α : Type} {z : ℤ} {f : ℤ → Option α} :
    (checked z).bind f ≠ none ↔ InInt64 z ∧ f z ≠ none := by
  simp only [Option.ne_none_iff_exists', checked_bind_eq_some, exists_and_left]

/-- The targets, and the results that have to be an `int64` on the way. -/
theorem targets_eq_some {position : ℤ} {tob : ShmTopOfBook} {prices : ℤ × ℤ} :
    targets cfg position tob = some prices ↔
      (InInt64 (tob.bidPx.toInt + tob.askPx.toInt) ∧ InInt64 (position * 2) ∧
        InInt64 (mid tob - cfg.halfSpread.toInt) ∧
        InInt64 (mid tob - cfg.halfSpread.toInt - skew position) ∧
        InInt64 (mid tob + cfg.halfSpread.toInt) ∧
        InInt64 (mid tob + cfg.halfSpread.toInt - skew position)) ∧
      prices = (mid tob - cfg.halfSpread.toInt - skew position,
        mid tob + cfg.halfSpread.toInt - skew position) := by
  simp only [targets, Option.bind_eq_bind, checked_bind_eq_some, and_assoc, mid, skew]
  repeat' apply and_congr Iff.rfl
  exact Option.some_inj.trans eq_comm

/-- `on_tob` has an outcome exactly when its arithmetic stays in range. -/
theorem onTob_ne_none_iff {tob : ShmTopOfBook} {nowNs : Int64} :
    s.onTob cfg tob nowNs ≠ none ↔ (validBook tob = true → TargetsFit cfg s.position tob) := by
  cases hbook : validBook tob with
  | false =>
    rw [onTob, hbook]
    exact iff_of_true (fun h => by contradiction) fun h => by contradiction
  | true =>
    rw [onTob, hbook]
    change (targets cfg s.position tob).bind _ ≠ none ↔ _
    constructor
    · intro h _
      obtain ⟨out, hout⟩ := Option.ne_none_iff_exists'.mp h
      obtain ⟨prices, htargets, hout⟩ := Option.bind_eq_some_iff.mp hout
      obtain ⟨⟨hsum, hdoubled, hbidBase, hbid, haskBase, hask⟩, -⟩ := targets_eq_some.mp htargets
      exact ⟨hsum, hdoubled, hbidBase, hbid, haskBase, hask, (checked_bind_eq_some.mp hout).1⟩
    · intro h
      obtain ⟨hsum, hdoubled, hbidBase, hbid, haskBase, hask, hlimit⟩ := h rfl
      rw [targets_eq_some.mpr ⟨⟨hsum, hdoubled, hbidBase, hbid, haskBase, hask⟩, rfl⟩]
      exact checked_bind_ne_none.mpr ⟨hlimit, fun heq => by contradiction⟩

/-- `on_fill` has an outcome exactly when its arithmetic stays in range: a fill whose id no slot
holds is only counted. -/
theorem onFill_ne_none_iff {fill : ShmOrderFill} :
    s.onFill fill ≠ none ↔ ∀ side, matched s fill.clId = some side → FillFits s side fill := by
  rw [onFill, matched]
  dsimp only
  split_ifs with hbid hask
  · change (checked _).bind _ ≠ none ↔ _
    simp only [Option.bind_eq_bind, checked_bind_ne_none]
    constructor
    · rintro ⟨hposition, hnotional, hpnl, -⟩ side hside
      cases hside
      refine ⟨?_, hnotional, ?_⟩
      · rwa [sign, one_mul]
      · rwa [sign, one_mul]
    · intro h
      obtain ⟨hposition, hnotional, hpnl⟩ := h .bid rfl
      rw [sign, one_mul] at hposition hpnl
      exact ⟨hposition, hnotional, hpnl, fun heq => by contradiction⟩
  · change (checked _).bind _ ≠ none ↔ _
    simp only [Option.bind_eq_bind, checked_bind_ne_none]
    constructor
    · rintro ⟨hposition, hnotional, hpnl, -⟩ side hside
      cases hside
      refine ⟨?_, hnotional, ?_⟩
      · rwa [sign, neg_one_mul, ← sub_eq_add_neg]
      · rwa [sign, neg_one_mul, sub_neg_eq_add]
    · intro h
      obtain ⟨hposition, hnotional, hpnl⟩ := h .ask rfl
      rw [sign, neg_one_mul, ← sub_eq_add_neg] at hposition
      rw [sign, neg_one_mul, sub_neg_eq_add] at hpnl
      exact ⟨hposition, hnotional, hpnl, fun heq => by contradiction⟩
  · exact iff_of_true (fun heq => by contradiction) fun side hside => by contradiction

/-- A call has an outcome exactly when its signed arithmetic stays in range. -/
theorem step_ne_none_iff {call : Call} :
    Native.step cfg s call ≠ none ↔ CallFits cfg s call := by
  cases call with
  | tob tob nowNs => exact onTob_ne_none_iff
  | ack ack => exact iff_of_true (fun heq => by contradiction) trivial
  | fill fill => exact (not_congr Option.map_eq_none_iff).trans onFill_ne_none_iff
  | reject reject => exact iff_of_true (fun heq => by contradiction) trivial
  | cancelAll => exact iff_of_true (fun heq => by contradiction) trivial

end Native

end MarketMaker
