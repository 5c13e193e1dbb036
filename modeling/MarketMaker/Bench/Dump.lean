import MarketMaker.Bench.Correlation
import MarketMaker.Lib.Packed

/-!
# The dump of the recorder

`BenchRecorder::serialize` and its reader, `read_engine_dump` of the harness. A dump is six 64-bit
words and the four streams after them, one directly behind the other. The words fix its length, so
no other length with the same words is read.
-/

namespace MarketMaker

open Packed

namespace BenchRecorder

/-- The `header` of `serialize`. -/
def header (r : BenchRecorder) (peakSessions : UInt64) : List Member :=
  [.u64 (.ofNat r.svc.length), .u64 (.ofNat r.m0M0p.length), .u64 (.ofNat r.m0pM3.length),
    .u64 (.ofNat r.m0M3.length), .u64 r.saturated, .u64 peakSessions]

/-- The samples of a stream, as they lie in memory. -/
def streamRepr (stream : List Int64) : Bytes := reprOf (stream.map .i64)

/-- `serialize`. -/
def serialize (r : BenchRecorder) (peakSessions : UInt64) : Bytes :=
  reprOf (r.header peakSessions) ++ [r.svc, r.m0M0p, r.m0pM3, r.m0M3].flatMap streamRepr

end BenchRecorder

/-! ## The reader -/

namespace Harness

/-- `_HEADER`, `"<6Q"`. -/
def headerStruct : List Code := [.Q, .Q, .Q, .Q, .Q, .Q]

/-- `_MAX_PEAK_SESSIONS`. -/
def maxPeakSessions : ℤ := 1

structure EngineDump where
  svc : List ℤ
  m0M0p : List ℤ
  m0pM3 : List ℤ
  m0M3 : List ℤ
  saturated : ℤ
  peakSessions : ℤ
  deriving DecidableEq, Repr

/-- So many samples at the front of the bytes. -/
def samplesOf : ℕ → Bytes → List ℤ
  | 0, _ => []
  | count + 1, raw => signed64 (leNat (raw.take 8)) :: samplesOf count (raw.drop 8)

/-- `_le_i64`. -/
def leI64 (raw : Bytes) : Except String (List ℤ) :=
  if raw.length % 8 = 0 then .ok (samplesOf (raw.length / 8) raw)
  else .error "bytes length not a multiple of item size"

/-- One turn of the loop over the counts: the stream and the next offset. -/
def readStream (raw : Bytes) (offset count : ℕ) : Except String (List ℤ × ℕ) := do
  let stream ← leI64 (slice raw offset (count * 8))
  return (stream, offset + count * 8)

/-- `read_engine_dump`, on the name of the file and its bytes. -/
def readEngineDump (name : String) (raw : Bytes) : Except String EngineDump :=
  if raw.length < calcsize headerStruct then
    .error s!"{name}: shorter than the {calcsize headerStruct}-byte header (truncated)"
  else
    match unpackFrom headerStruct raw with
    | some [.int nSvc, .int nM0M0p, .int nM0pM3, .int nM0M3, .int saturated, .int peak] =>
      let counts := [nSvc, nM0M0p, nM0pM3, nM0M3]
      let expected := calcsize headerStruct + counts.sum * 8
      if maxPeakSessions < peak then
        .error (s!"{name}: peak session count {peak} > {maxPeakSessions}; m0->m0' is the " ++
          "fan-out minimum here, not the delivery boundary, so this run cannot back an " ++
          "attribution table")
      else if raw.length ≠ expected then
        .error (s!"{name}: header promises {counts.sum} samples ({expected} bytes) but the file " ++
          s!"is {raw.length} bytes — truncated dump")
      else do
        let (svc, offset) ← readStream raw (calcsize headerStruct) nSvc.toNat
        let (m0M0p, offset) ← readStream raw offset nM0M0p.toNat
        let (m0pM3, offset) ← readStream raw offset nM0pM3.toNat
        let (m0M3, _) ← readStream raw offset nM0M3.toNat
        return { svc, m0M0p, m0pM3, m0M3, saturated, peakSessions := peak }
    | _ => .error "unpack_from requires a buffer of at least 48 bytes"

/-! ## Streams -/

section Streams

variable (stream : List Int64)

theorem length_streamRepr : (BenchRecorder.streamRepr stream).length = stream.length * 8 := by
  induction stream with
  | nil => rfl
  | cons sample stream ih =>
    have hsample : (Member.i64 sample).repr.length = 8 := length_leBytes 8 _
    have hcons : BenchRecorder.streamRepr (sample :: stream) =
        (Member.i64 sample).repr ++ BenchRecorder.streamRepr stream := rfl
    rw [hcons, List.length_append, hsample, ih, List.length_cons]
    omega

theorem samplesOf_streamRepr :
    samplesOf stream.length (BenchRecorder.streamRepr stream) = stream.map Int64.toInt := by
  induction stream with
  | nil => rfl
  | cons sample stream ih =>
    have hsample : (Member.i64 sample).repr.length = 8 := length_leBytes 8 _
    have hvalue : leNat (Member.i64 sample).repr = sample.toUInt64.toNat :=
      leNat_leBytes_of_lt sample.toUInt64.toNat_lt
    have hcons : BenchRecorder.streamRepr (sample :: stream) =
        (Member.i64 sample).repr ++ BenchRecorder.streamRepr stream := rfl
    rw [hcons, List.length_cons, samplesOf, List.take_left' hsample, List.drop_left' hsample,
      hvalue,
      signed64_toNat, ih, List.map_cons]

theorem leI64_streamRepr :
    leI64 (BenchRecorder.streamRepr stream) = .ok (stream.map Int64.toInt) := by
  rw [leI64, length_streamRepr, if_pos (Nat.mul_mod_left _ _), Nat.mul_div_left _ (by decide),
    samplesOf_streamRepr]

/-- A stream is read where the one before it ends. -/
theorem readStream_append {front back : Bytes} {offset : ℕ} (hoffset : front.length = offset) :
    readStream (front ++ (BenchRecorder.streamRepr stream ++ back)) offset stream.length =
      .ok (stream.map Int64.toInt, offset + stream.length * 8) := by
  rw [readStream, slice_append hoffset (length_streamRepr stream), leI64_streamRepr]
  rfl

end Streams

end Harness

/-! ## Dumps -/

namespace BenchRecorder

/-- The lengths of the streams are what a `std::size_t` holds. -/
structure Sized (r : BenchRecorder) : Prop where
  svc : r.svc.length < 2 ^ 64
  m0M0p : r.m0M0p.length < 2 ^ 64
  m0pM3 : r.m0pM3.length < 2 ^ 64
  m0M3 : r.m0M3.length < 2 ^ 64

/-- No stream is longer than what it has reserved. -/
structure Within (r : BenchRecorder) : Prop where
  svc : r.svc.length ≤ r.capacity
  m0M0p : r.m0M0p.length ≤ r.capacity
  m0pM3 : r.m0pM3.length ≤ r.capacity
  m0M3 : r.m0M3.length ≤ r.capacity

section Within

variable {r : BenchRecorder}

theorem length_append_le {stream : List Int64} (h : stream.length ≤ r.capacity) (sample : Int64) :
    (r.append stream sample).1.length ≤ r.capacity := by
  rw [append]
  split_ifs with hfull
  · exact h
  · rw [List.length_append, List.length_singleton]
    exact Nat.lt_of_le_of_ne h hfull

theorem Within.appendM0M0p (h : r.Within) (sample : Int64) : (r.appendM0M0p sample).Within :=
  { h with m0M0p := length_append_le h.m0M0p sample }

theorem Within.appendM0pM3 (h : r.Within) (sample : Int64) : (r.appendM0pM3 sample).Within :=
  { h with m0pM3 := length_append_le h.m0pM3 sample }

theorem Within.appendM0M3 (h : r.Within) (sample : Int64) : (r.appendM0M3 sample).Within :=
  { h with m0M3 := length_append_le h.m0M3 sample }

theorem Within.setSlot (h : r.Within) (mdSeq : ℕ) (slot : Slot) : (r.setSlot mdSeq slot).Within :=
  { h with }

theorem Within.call (h : r.Within) (call : BenchCall) : (r.call call).Within := by
  cases call with
  | mdPublished mdSeq m0Ns =>
    rw [BenchRecorder.call, mdPublished]
    split_ifs
    · exact h
    · exact { h with }
  | svc e2MinusE1Ns => exact { h with svc := length_append_le h.svc e2MinusE1Ns }
  | mdWritten mdSeq m0pNs =>
    rw [BenchRecorder.call, mdWritten]
    split
    · exact h
    · split_ifs
      · exact h
      · exact (h.setSlot mdSeq _).appendM0M0p _
  | orderFor mdSeq m3Ns =>
    rw [BenchRecorder.call, orderFor]
    split
    · exact h
    · split_ifs
      · exact h
      · exact ((h.setSlot mdSeq _).appendM0pM3 _).appendM0M3 _
      · exact (h.setSlot mdSeq _).appendM0M3 _

theorem Within.sized (h : r.Within) (hcapacity : r.capacity < 2 ^ 64) : r.Sized where
  svc := h.svc.trans_lt hcapacity
  m0M0p := h.m0M0p.trans_lt hcapacity
  m0pM3 := h.m0pM3.trans_lt hcapacity
  m0M3 := h.m0M3.trans_lt hcapacity

end Within

theorem capacity_call (r : BenchRecorder) (call : BenchCall) :
    (r.call call).capacity = r.capacity := by
  cases call with
  | svc e2MinusE1Ns => rfl
  | mdPublished mdSeq m0Ns =>
    rw [BenchRecorder.call, mdPublished]
    split_ifs <;> rfl
  | mdWritten mdSeq m0pNs =>
    rw [BenchRecorder.call, mdWritten]
    split
    · rfl
    · split_ifs <;> rfl
  | orderFor mdSeq m3Ns =>
    rw [BenchRecorder.call, orderFor]
    split
    · rfl
    · split_ifs <;> rfl

/-- Every recorder that a run reaches can be dumped. -/
theorem run_sized {capacity : ℕ} (hcapacity : capacity < 2 ^ 64) (calls : List BenchCall) :
    (run capacity calls).Sized := by
  have hrun : ∀ r : BenchRecorder, r.Within → r.capacity = capacity →
      (calls.foldl call r).Within ∧ (calls.foldl call r).capacity = capacity := by
    induction calls with
    | nil => exact fun r h hc => ⟨h, hc⟩
    | cons c calls ih => exact fun r h hc => ih (r.call c) (h.call c) ((r.capacity_call c).trans hc)
  have hnew : BenchRecorder.Within { capacity } :=
    ⟨Nat.zero_le _, Nat.zero_le _, Nat.zero_le _, Nat.zero_le _⟩
  obtain ⟨hwithin, heq⟩ := hrun { capacity } hnew rfl
  exact hwithin.sized (heq.trans_lt hcapacity)

section Reading

variable {r : BenchRecorder} {peakSessions : UInt64} {name : String}

/-- The length that the words of a dump promise. -/
theorem length_serialize : (r.serialize peakSessions).length =
    48 + (r.svc.length + r.m0M0p.length + r.m0pM3.length + r.m0M3.length) * 8 := by
  have hheader : (reprOf (r.header peakSessions)).length = 48 := length_reprOf _
  simp only [serialize, List.length_append, hheader, List.flatMap_cons, List.flatMap_nil,
    Harness.length_streamRepr, List.length_nil]
  omega

/-- The values of the header. -/
theorem unpackFrom_header (h : r.Sized) (rest : Bytes) :
    unpackFrom Harness.headerStruct (reprOf (r.header peakSessions) ++ rest) =
      some [.int r.svc.length, .int r.m0M0p.length, .int r.m0pM3.length, .int r.m0M3.length,
        .int r.saturated.toNat, .int peakSessions.toNat] := by
  have hformat : Harness.headerStruct = (r.header peakSessions).map Member.code := rfl
  have hword {n : ℕ} (hn : n < 2 ^ 64) : (UInt64.ofNat n).toNat = n := UInt64.toNat_ofNat_of_lt' hn
  rw [hformat, unpackFrom_members, header]
  simp only [List.map_cons, List.map_nil, Member.value, hword h.svc, hword h.m0M0p, hword h.m0pM3,
    hword h.m0M3]

/-- Bytes of another length under the header of a dump are refused. -/
theorem readEngineDump_of_length_ne (h : r.Sized) {rest : Bytes}
    (hlength : (reprOf (r.header peakSessions) ++ rest).length ≠
      (r.serialize peakSessions).length) :
    ∃ message, Harness.readEngineDump name (reprOf (r.header peakSessions) ++ rest) =
      .error message := by
  rw [length_serialize] at hlength
  rw [Harness.readEngineDump, unpackFrom_header h]
  split_ifs with hshort
  · exact ⟨_, rfl⟩
  dsimp only
  split_ifs with hpeak hexpected
  · exact ⟨_, rfl⟩
  · exact ⟨_, rfl⟩
  · exfalso
    rw [Decidable.not_not] at hexpected
    apply hlength
    have hsize : calcsize Harness.headerStruct = 48 := rfl
    simp only [hsize, List.sum_cons, List.sum_nil] at hexpected
    push_cast at hexpected
    omega

/-- A dump of more than one session is refused. -/
theorem readEngineDump_of_many (h : r.Sized) (hpeak : 1 < peakSessions) :
    ∃ message, Harness.readEngineDump name (r.serialize peakSessions) = .error message := by
  have hmany : Harness.maxPeakSessions < (peakSessions.toNat : ℤ) := by
    have hone : 1 < peakSessions.toNat := UInt64.lt_iff_toNat_lt.mp hpeak
    rw [Harness.maxPeakSessions]
    omega
  rw [Harness.readEngineDump, serialize, unpackFrom_header h]
  split_ifs with hshort
  · exact ⟨_, rfl⟩
  · dsimp only
    rw [if_pos hmany]
    exact ⟨_, rfl⟩

/-- What a dump is read as. -/
def toDump (r : BenchRecorder) (peakSessions : UInt64) : Harness.EngineDump where
  svc := r.svc.map Int64.toInt
  m0M0p := r.m0M0p.map Int64.toInt
  m0pM3 := r.m0pM3.map Int64.toInt
  m0M3 := r.m0M3.map Int64.toInt
  saturated := r.saturated.toNat
  peakSessions := peakSessions.toNat

/-- Each stream is read from where the one before it ends. -/
theorem readStream_serialize :
    Harness.readStream (r.serialize peakSessions) 48 r.svc.length =
        .ok (r.svc.map Int64.toInt, 48 + r.svc.length * 8) ∧
      Harness.readStream (r.serialize peakSessions) (48 + r.svc.length * 8) r.m0M0p.length =
        .ok (r.m0M0p.map Int64.toInt, 48 + r.svc.length * 8 + r.m0M0p.length * 8) ∧
      Harness.readStream (r.serialize peakSessions)
          (48 + r.svc.length * 8 + r.m0M0p.length * 8) r.m0pM3.length =
        .ok (r.m0pM3.map Int64.toInt,
          48 + r.svc.length * 8 + r.m0M0p.length * 8 + r.m0pM3.length * 8) ∧
      Harness.readStream (r.serialize peakSessions)
          (48 + r.svc.length * 8 + r.m0M0p.length * 8 + r.m0pM3.length * 8) r.m0M3.length =
        .ok (r.m0M3.map Int64.toInt,
          48 + r.svc.length * 8 + r.m0M0p.length * 8 + r.m0pM3.length * 8 + r.m0M3.length * 8) := by
  have hheader : (reprOf (r.header peakSessions)).length = 48 := length_reprOf _
  have hsvc : (reprOf (r.header peakSessions) ++ streamRepr r.svc).length =
      48 + r.svc.length * 8 := by
    rw [List.length_append, hheader, Harness.length_streamRepr]
  have hm0M0p : (reprOf (r.header peakSessions) ++ streamRepr r.svc ++ streamRepr r.m0M0p).length =
      48 + r.svc.length * 8 + r.m0M0p.length * 8 := by
    rw [List.length_append, hsvc, Harness.length_streamRepr]
  have hm0pM3 : (reprOf (r.header peakSessions) ++ streamRepr r.svc ++ streamRepr r.m0M0p ++
      streamRepr r.m0pM3).length =
        48 + r.svc.length * 8 + r.m0M0p.length * 8 + r.m0pM3.length * 8 := by
    rw [List.length_append, hm0M0p, Harness.length_streamRepr]
  have hbytes : r.serialize peakSessions = reprOf (r.header peakSessions) ++
      (streamRepr r.svc ++ (streamRepr r.m0M0p ++ (streamRepr r.m0pM3 ++
        (streamRepr r.m0M3 ++ [])))) := rfl
  refine ⟨?_, ?_, ?_, ?_⟩
  · rw [hbytes, Harness.readStream_append r.svc hheader]
  · rw [hbytes, ← List.append_assoc, Harness.readStream_append r.m0M0p hsvc]
  · rw [hbytes, ← List.append_assoc, ← List.append_assoc,
      Harness.readStream_append r.m0pM3 hm0M0p]
  · rw [hbytes, ← List.append_assoc, ← List.append_assoc, ← List.append_assoc,
      Harness.readStream_append r.m0M3 hm0pM3]

theorem readEngineDump_serialize (h : r.Sized) (hpeak : peakSessions ≤ 1) :
    Harness.readEngineDump name (r.serialize peakSessions) = .ok (r.toDump peakSessions) := by
  have hsize : calcsize Harness.headerStruct = 48 := rfl
  have hlong : ¬ (r.serialize peakSessions).length < 48 := by
    rw [length_serialize]
    omega
  have hunpack : unpackFrom Harness.headerStruct (r.serialize peakSessions) = _ :=
    unpackFrom_header h _
  have hle : ¬ Harness.maxPeakSessions < (peakSessions.toNat : ℤ) := by
    have hone : peakSessions.toNat ≤ 1 := UInt64.le_iff_toNat_le.mp hpeak
    rw [Harness.maxPeakSessions]
    omega
  obtain ⟨hsvc, hm0M0p, hm0pM3, hm0M3⟩ :=
    @readStream_serialize r peakSessions
  rw [Harness.readEngineDump, hsize, if_neg hlong, hunpack]
  dsimp only
  rw [if_neg hle, if_neg ?_]
  · simp only [Int.toNat_natCast, hsvc, hm0M0p, hm0pM3, hm0M3, bind, Except.bind]
    rfl
  · rw [Decidable.not_not, length_serialize]
    simp only [List.sum_cons, List.sum_nil]
    push_cast
    omega

/-- Whatever calls a recorder has taken, its dump is read back as what it has recorded. -/
theorem readEngineDump_run {capacity : ℕ} (hcapacity : capacity < 2 ^ 64) (calls : List BenchCall)
    (hpeak : peakSessions ≤ 1) :
    Harness.readEngineDump name ((run capacity calls).serialize peakSessions) =
      .ok ((run capacity calls).toDump peakSessions) :=
  readEngineDump_serialize (run_sized hcapacity calls) hpeak

/-- A dump reads back as what was recorded; one of several sessions is refused, and so is one that
is cut short or has bytes after it. -/
theorem dump_round_trip (r : BenchRecorder) (h : r.Sized) (peakSessions : UInt64) (name : String) :
    (peakSessions ≤ 1 →
        Harness.readEngineDump name (r.serialize peakSessions) = .ok (r.toDump peakSessions)) ∧
      (1 < peakSessions → ∃ message,
        Harness.readEngineDump name (r.serialize peakSessions) = .error message) ∧
      (∀ raw, raw <+: r.serialize peakSessions → raw ≠ r.serialize peakSessions →
        ∃ message, Harness.readEngineDump name raw = .error message) ∧
      ∀ extra, extra ≠ [] → ∃ message,
        Harness.readEngineDump name (r.serialize peakSessions ++ extra) = .error message := by
  refine ⟨readEngineDump_serialize h, fun hpeak => ?_, fun raw hraw hne => ?_,
    fun extra hextra => ?_⟩
  · exact readEngineDump_of_many h hpeak
  · have hlt : raw.length < (r.serialize peakSessions).length :=
      Nat.lt_of_le_of_ne hraw.length_le fun heq => hne (hraw.eq_of_length heq)
    rcases Nat.lt_or_ge raw.length 48 with hshort | hlong
    · have hsize : raw.length < calcsize Harness.headerStruct := hshort
      rw [Harness.readEngineDump, if_pos hsize]
      exact ⟨_, rfl⟩
    · -- the words of the header are whole
      have hheader : (reprOf (r.header peakSessions)).length = 48 := length_reprOf _
      have hprefix : reprOf (r.header peakSessions) <+: raw :=
        List.prefix_of_prefix_length_le (List.prefix_append _ _) hraw (hheader.trans_le hlong)
      obtain ⟨rest, rfl⟩ := hprefix
      exact readEngineDump_of_length_ne h hlt.ne
  · have hbytes : r.serialize peakSessions ++ extra = reprOf (r.header peakSessions) ++
        ([r.svc, r.m0M0p, r.m0pM3, r.m0M3].flatMap streamRepr ++ extra) := List.append_assoc _ _ _
    have hlt : (r.serialize peakSessions).length < (r.serialize peakSessions ++ extra).length := by
      rw [List.length_append]
      exact Nat.lt_add_of_pos_right (List.length_pos_iff.mpr hextra)
    rw [hbytes] at hlt ⊢
    exact readEngineDump_of_length_ne h hlt.ne'

/-- A recorder with a negative sample and an empty stream. -/
theorem dump_round_trip_negative :
    ∃ r : BenchRecorder, r = { svc := [-5, 7], m0M0p := [3], saturated := 2, capacity := 4 } ∧
      Harness.readEngineDump "dump" (r.serialize 1) =
        .ok { svc := [-5, 7], m0M0p := [3], m0pM3 := [], m0M3 := [], saturated := 2,
              peakSessions := 1 } ∧
      (∃ message, Harness.readEngineDump "dump" (r.serialize 2) = .error message) ∧
      (∃ message, Harness.readEngineDump "dump" ((r.serialize 1).take 50) = .error message) ∧
      ∃ message, Harness.readEngineDump "dump" (r.serialize 1 ++ [0]) = .error message := by
  refine ⟨_, rfl, ?_⟩
  have hsized : Sized { svc := [-5, 7], m0M0p := [3], saturated := 2, capacity := 4 } :=
    ⟨by decide, by decide, by decide, by decide⟩
  obtain ⟨hread, -, hcut, hlong⟩ := dump_round_trip _ hsized 1 "dump"
  obtain ⟨-, hmany, -, -⟩ := dump_round_trip _ hsized 2 "dump"
  refine ⟨(hread (by decide)).trans rfl, hmany (by decide), hcut _ (List.take_prefix _ _) ?_,
    hlong _ (by decide)⟩
  intro heq
  have hlength := congrArg List.length heq
  rw [List.length_take, length_serialize] at hlength
  exact absurd hlength (by decide)

end Reading

end BenchRecorder

end MarketMaker
