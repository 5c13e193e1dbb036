import Mathlib.Logic.Function.Basic
import MarketMaker.Protocol

/-!
# The latency recorder

`mm::BenchRecorder`: a ring of slots that correlates the events of one `md_seq`, and four streams of
samples. Times and samples are `int64` nanoseconds.
-/

namespace MarketMaker

/-- `BenchRecorder::kCorrelationSlots`. -/
def kCorrelationSlots : ℕ := 65536

/-- `BenchRecorder::Slot`. -/
structure Slot where
  /-- Zero in an empty slot. -/
  mdSeq : ℕ := 0
  m0Ns : Int64 := 0
  /-- Zero until the frame is handed to a write. -/
  m0pNs : Int64 := 0
  m3Taken : Bool := false
  deriving DecidableEq, Repr

structure BenchRecorder where
  slots : ℕ → Slot := fun _ => {}
  svc : List Int64 := []
  m0M0p : List Int64 := []
  m0pM3 : List Int64 := []
  m0M3 : List Int64 := []
  saturated : UInt64 := 0
  /-- What every stream has reserved. -/
  capacity : ℕ

namespace BenchRecorder

/-- The constructor; `none` is its `std::invalid_argument`. -/
def new (capacity : ℕ) : Option BenchRecorder := if capacity = 0 then none else some { capacity }

/-- The slot of a number. -/
def slotOf (mdSeq : ℕ) : ℕ := mdSeq % kCorrelationSlots

/-- `md_published`. -/
def mdPublished (r : BenchRecorder) (mdSeq : ℕ) (m0Ns : Int64) : BenchRecorder :=
  if mdSeq = 0 then r
  else { r with slots := Function.update r.slots (slotOf mdSeq) { mdSeq, m0Ns } }

/-- `find`. -/
def find (r : BenchRecorder) (mdSeq : ℕ) : Option Slot :=
  if mdSeq = 0 then none
  else if (r.slots (slotOf mdSeq)).mdSeq = mdSeq then some (r.slots (slotOf mdSeq)) else none

/-- Assign to the slot that `find` has returned. -/
def setSlot (r : BenchRecorder) (mdSeq : ℕ) (slot : Slot) : BenchRecorder :=
  { r with slots := Function.update r.slots (slotOf mdSeq) slot }

/-- `append`, to one of the streams: the stream and whether it refused the sample. -/
def append (r : BenchRecorder) (stream : List Int64) (sample : Int64) : List Int64 × UInt64 :=
  if stream.length = r.capacity then (stream, r.saturated + 1)
  else (stream ++ [sample], r.saturated)

/-- `append(m0_m0p_, sample)`. -/
def appendM0M0p (r : BenchRecorder) (sample : Int64) : BenchRecorder :=
  { r with m0M0p := (r.append r.m0M0p sample).1, saturated := (r.append r.m0M0p sample).2 }

/-- `append(m0p_m3_, sample)`. -/
def appendM0pM3 (r : BenchRecorder) (sample : Int64) : BenchRecorder :=
  { r with m0pM3 := (r.append r.m0pM3 sample).1, saturated := (r.append r.m0pM3 sample).2 }

/-- `append(m0_m3_, sample)`. -/
def appendM0M3 (r : BenchRecorder) (sample : Int64) : BenchRecorder :=
  { r with m0M3 := (r.append r.m0M3 sample).1, saturated := (r.append r.m0M3 sample).2 }

/-- `md_written`. The difference wraps; in the source, stamps further apart than an `int64` holds
are undefined behaviour. -/
def mdWritten (r : BenchRecorder) (mdSeq : ℕ) (m0pNs : Int64) : BenchRecorder :=
  match r.find mdSeq with
  | none => r
  | some slot =>
    if slot.m0pNs ≠ 0 then r
    else (r.setSlot mdSeq { slot with m0pNs }).appendM0M0p (m0pNs - slot.m0Ns)

/-- `order_for`. The differences wrap, as in `mdWritten`. -/
def orderFor (r : BenchRecorder) (mdSeq : ℕ) (m3Ns : Int64) : BenchRecorder :=
  match r.find mdSeq with
  | none => r
  | some slot =>
    if slot.m3Taken then r
    else
      let r := r.setSlot mdSeq { slot with m3Taken := true }
      let r := if slot.m0pNs ≠ 0 then r.appendM0pM3 (m3Ns - slot.m0pNs) else r
      r.appendM0M3 (m3Ns - slot.m0Ns)

/-- `svc`. -/
def recordSvc (r : BenchRecorder) (e2MinusE1Ns : Int64) : BenchRecorder :=
  { r with svc := (r.append r.svc e2MinusE1Ns).1, saturated := (r.append r.svc e2MinusE1Ns).2 }

end BenchRecorder

end MarketMaker
