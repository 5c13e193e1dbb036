import MarketMaker.Protocol

/-!
# The outbox of a session

`mm::Outbox` (`mm/outbox.hpp`): a FIFO of order reports, which are never dropped, and one slot for
the pending top of book, which a newer tick replaces. Exceeding the mark is observed, not enforced:
`pushReport` keeps queueing and latches the breach.
-/

namespace MarketMaker

/-- `mm::Outbox`. -/
structure Outbox where
  reportHwm : ℕ
  reportHwmBreached : Bool := false
  /-- Ticks superseded by a newer one. -/
  conflated : ℕ := 0
  reports : List OutMsg := []
  tob : Option Tob := none

namespace Outbox

variable (o : Outbox)

/-- `push_report`. A tick makes the source throw before anything is queued. -/
def pushReport (msg : OutMsg) : Outbox :=
  if msg.isTob then o
  else
    { o with
      reports := o.reports ++ [msg]
      reportHwmBreached := o.reportHwmBreached || o.reportHwm < o.reports.length + 1 }

/-- `push_tob`. -/
def pushTob (msg : Tob) : Outbox :=
  { o with
    conflated := if o.tob.isSome then o.conflated + 1 else o.conflated
    tob := some msg }

/-- `pop`: the oldest report, else the pending tick. -/
def pop : Option (OutMsg × Outbox) :=
  match o.reports with
  | msg :: rest => some (msg, { o with reports := rest })
  | [] =>
    match o.tob with
    | some tob => some (.tob tob, { o with tob := none })
    | none => none

/-- `depth`: how many pops remain. -/
def depth : ℕ := o.reports.length + if o.tob.isSome then 1 else 0

variable {o}

theorem pushReport_of_not_isTob {msg : OutMsg} (h : msg.isTob = false) :
    o.pushReport msg =
      { o with
        reports := o.reports ++ [msg]
        reportHwmBreached := o.reportHwmBreached || o.reportHwm < o.reports.length + 1 } := by
  simp [pushReport, h]

/-- What a pop takes: a report while there is one, and the tick only when there is none. -/
theorem pop_cases {msg : OutMsg} {o' : Outbox} (h : o.pop = some (msg, o')) :
    (∃ rest, o.reports = msg :: rest ∧ o' = { o with reports := rest }) ∨
      ∃ tob, o.reports = [] ∧ o.tob = some tob ∧ msg = .tob tob ∧ o' = { o with tob := none } := by
  unfold pop at h
  split at h
  · next msg' rest hr =>
    cases h
    exact Or.inl ⟨rest, hr, rfl⟩
  · next hr =>
    split at h
    · next tob ht =>
      cases h
      exact Or.inr ⟨tob, hr, ht, rfl, rfl⟩
    · cases h

theorem pop_eq_none_iff : o.pop = none ↔ o.reports = [] ∧ o.tob = none := by
  unfold pop
  split
  · next hr => simp [hr]
  · next hr =>
    split
    · next ht => simp [ht]
    · next ht => simp [hr, ht]

theorem depth_pop {msg : OutMsg} {o' : Outbox} (h : o.pop = some (msg, o')) :
    o.depth = o'.depth + 1 := by
  rcases pop_cases h with ⟨rest, hr, rfl⟩ | ⟨tob, hr, ht, rfl, rfl⟩
  · simp only [depth, hr, List.length_cons]
    omega
  · simp [depth, hr, ht]

end Outbox

end MarketMaker
