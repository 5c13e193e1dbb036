import MarketMaker.Bench.Recorder

/-!
# The samples of the recorder

What the streams hold is told from the calls alone: `openedAt`, `firstIn` and the three rules for a
sample look at the calls so far and at nothing that the recorder stores. A history is a list of
calls, the latest one first. `find_after` says which publish owns each slot, and what the slot knows
of it. -/

namespace MarketMaker

/-- A call of the recorder. -/
inductive BenchCall
  | mdPublished (mdSeq : ℕ) (m0Ns : Int64)
  | mdWritten (mdSeq : ℕ) (m0pNs : Int64)
  | orderFor (mdSeq : ℕ) (m3Ns : Int64)
  | svc (e2MinusE1Ns : Int64)
  deriving DecidableEq, Repr

namespace BenchCall

/-- The number that is published, and when. -/
def publish : BenchCall → Option (ℕ × Int64)
  | mdPublished mdSeq m0Ns => some (mdSeq, m0Ns)
  | _ => none

/-- The number that is written, and when. -/
def write : BenchCall → Option (ℕ × Int64)
  | mdWritten mdSeq m0pNs => some (mdSeq, m0pNs)
  | _ => none

/-- The number that an order echoes, and when. -/
def echo : BenchCall → Option (ℕ × Int64)
  | orderFor mdSeq m3Ns => some (mdSeq, m3Ns)
  | _ => none

/-- The call publishes a larger number of the same slot. -/
def evicts (mdSeq : ℕ) (call : BenchCall) : Bool :=
  call.publish.any fun p =>
    mdSeq < p.1 && p.1 % kCorrelationSlots = mdSeq % kCorrelationSlots

/-- The time at which the call publishes this number. -/
def publishTime (mdSeq : ℕ) (call : BenchCall) : Option Int64 :=
  call.publish.bind fun p => if p.1 = mdSeq then some p.2 else none

end BenchCall

/-! ## The samples -/

/-- The time at which a number was published, as long as no larger one of its slot has been. -/
def openedAt (past : List BenchCall) (mdSeq : ℕ) : Option Int64 :=
  if past.any (BenchCall.evicts mdSeq) then none
  else past.findSome? (BenchCall.publishTime mdSeq)

/-- The time of the first event of this kind while the window of the number was open. -/
def firstIn (event : BenchCall → Option (ℕ × Int64)) : List BenchCall → ℕ → Option Int64
  | [], _ => none
  | call :: past, mdSeq =>
    (firstIn event past mdSeq).or <|
      (event call).bind fun p =>
        if p.1 = mdSeq ∧ (openedAt past mdSeq).isSome then some p.2 else none

/-- The first write in the window of a number: the time since its publish. -/
def writeSample (past : List BenchCall) (call : BenchCall) : Option Int64 :=
  call.write.bind fun p =>
    if firstIn BenchCall.write past p.1 = none then (openedAt past p.1).map (p.2 - ·) else none

/-- The first echo in the window of a number: the time since its publish. -/
def echoSample (past : List BenchCall) (call : BenchCall) : Option Int64 :=
  call.echo.bind fun p =>
    if firstIn BenchCall.echo past p.1 = none then (openedAt past p.1).map (p.2 - ·) else none

/-- The first echo in the window of a number: the time since its first write, if there was one. -/
def deliverySample (past : List BenchCall) (call : BenchCall) : Option Int64 :=
  call.echo.bind fun p =>
    if firstIn BenchCall.echo past p.1 = none ∧ (openedAt past p.1).isSome then
      (firstIn BenchCall.write past p.1).map (p.2 - ·)
    else none

/-- The time that a command took. -/
def svcSample (_past : List BenchCall) : BenchCall → Option Int64
  | .svc e2MinusE1Ns => some e2MinusE1Ns
  | _ => none

/-- The samples of a history, in the order of the calls. -/
def samples (sample : List BenchCall → BenchCall → Option Int64) : List BenchCall → List Int64
  | [] => []
  | call :: past => samples sample past ++ (sample past call).toList

/-! ## Runs -/

namespace BenchRecorder

def call (r : BenchRecorder) : BenchCall → BenchRecorder
  | .mdPublished mdSeq m0Ns => r.mdPublished mdSeq m0Ns
  | .mdWritten mdSeq m0pNs => r.mdWritten mdSeq m0pNs
  | .orderFor mdSeq m3Ns => r.orderFor mdSeq m3Ns
  | .svc e2MinusE1Ns => r.recordSvc e2MinusE1Ns

/-- A new recorder after a history. -/
def after (capacity : ℕ) (past : List BenchCall) : BenchRecorder :=
  past.foldr (fun c r => r.call c) { capacity }

/-- A new recorder after calls in their order. -/
def run (capacity : ℕ) (calls : List BenchCall) : BenchRecorder := calls.foldl call { capacity }

/-- A run is its history, read from the end. -/
theorem run_eq (capacity : ℕ) (calls : List BenchCall) :
    run capacity calls = after capacity calls.reverse := by
  rw [run, after, List.foldr_reverse]

end BenchRecorder

/-- The numbers that a history publishes only go up, from 1, and no write is at time zero. -/
structure Ascending (past : List BenchCall) : Prop where
  increasing : past.Pairwise fun late early =>
    ∀ p ∈ late.publish, ∀ p' ∈ early.publish, p'.1 < p.1
  positive : ∀ call ∈ past, ∀ p ∈ call.publish, 0 < p.1
  nonzero : ∀ call ∈ past, ∀ p ∈ call.write, p.2 ≠ 0

section Windows

variable {past : List BenchCall} {call : BenchCall} {mdSeq : ℕ}
  {event : BenchCall → Option (ℕ × Int64)}

/-- An earlier history ascends as well. -/
theorem Ascending.tail (h : Ascending (call :: past)) : Ascending past where
  increasing := (List.pairwise_cons.mp h.increasing).2
  positive c hc := h.positive c (List.mem_cons_of_mem call hc)
  nonzero c hc := h.nonzero c (List.mem_cons_of_mem call hc)

/-- What is published last is larger than all before. -/
theorem Ascending.head {m0Ns : Int64} (h : Ascending (.mdPublished mdSeq m0Ns :: past)) :
    ∀ c ∈ past, ∀ p ∈ c.publish, p.1 < mdSeq := fun c hc p hp =>
  (List.pairwise_cons.mp h.increasing).1 c hc (mdSeq, m0Ns) rfl p hp

/-! ## Windows -/

/-- Only a publish opens a slot. -/
theorem openedAt_cons_of_not_publish (h : call.publish = none) :
    openedAt (call :: past) mdSeq = openedAt past mdSeq := by
  have hevicts : call.evicts mdSeq = false := by rw [BenchCall.evicts, h]; rfl
  have htime : call.publishTime mdSeq = none := by rw [BenchCall.publishTime, h]; rfl
  rw [openedAt, openedAt, List.any_cons, hevicts, Bool.false_or, List.findSome?_cons, htime]

/-- A number that was never published has no window. -/
theorem openedAt_eq_none (h : ∀ c ∈ past, ∀ p ∈ c.publish, p.1 ≠ mdSeq) :
    openedAt past mdSeq = none := by
  rw [openedAt]
  split_ifs with hevicted
  · rfl
  · rw [List.findSome?_eq_none_iff]
    intro c hc
    rw [BenchCall.publishTime, Option.bind_eq_none_iff]
    exact fun p hp => if_neg (h c hc p hp)

/-- A publish opens its window. -/
theorem openedAt_publish_self {m0Ns : Int64} (h : ∀ c ∈ past, ∀ p ∈ c.publish, p.1 < mdSeq) :
    openedAt (.mdPublished mdSeq m0Ns :: past) mdSeq = some m0Ns := by
  have hevicts : (BenchCall.mdPublished mdSeq m0Ns :: past).any (BenchCall.evicts mdSeq) =
      false := by
    rw [List.any_eq_false]
    intro c hc hevicts
    rw [BenchCall.evicts, Option.any_eq_true] at hevicts
    obtain ⟨p, hp, hlater⟩ := hevicts
    rw [Bool.and_eq_true, decide_eq_true_eq] at hlater
    rcases List.mem_cons.mp hc with rfl | hc
    · cases hp
      exact Nat.lt_irrefl _ hlater.1
    · exact Nat.lt_asymm hlater.1 (h c hc p hp)
  rw [openedAt, hevicts, if_neg (by decide), List.findSome?_cons]
  simp [BenchCall.publishTime, BenchCall.publish]

/-- It closes the window of the number before it in the slot, and no other. -/
theorem openedAt_publish_of_ne {other : ℕ} {m0Ns : Int64} (hne : mdSeq ≠ other)
    (h : ∀ c ∈ past, ∀ p ∈ c.publish, p.1 < other) :
    openedAt (.mdPublished other m0Ns :: past) mdSeq =
      if BenchRecorder.slotOf mdSeq = BenchRecorder.slotOf other then none
      else openedAt past mdSeq := by
  have htime : (BenchCall.mdPublished other m0Ns).publishTime mdSeq = none :=
    if_neg hne.symm
  split_ifs with hslot
  · rcases Nat.lt_or_gt_of_ne hne with hlt | hgt
    · have hevicts : (BenchCall.mdPublished other m0Ns).evicts mdSeq = true := by
        have hmod : other % kCorrelationSlots = mdSeq % kCorrelationSlots := hslot.symm
        simp [BenchCall.evicts, BenchCall.publish, hlt, hmod]
      rw [openedAt, List.any_cons, hevicts, Bool.true_or, if_pos rfl]
    · refine openedAt_eq_none fun c hc p hp => ?_
      rcases List.mem_cons.mp hc with rfl | hc
      · cases hp
        exact hne.symm
      · exact ((h c hc p hp).trans hgt).ne
  · have hevicts : (BenchCall.mdPublished other m0Ns).evicts mdSeq = false := by
      have hmod : other % kCorrelationSlots ≠ mdSeq % kCorrelationSlots := Ne.symm hslot
      simp [BenchCall.evicts, BenchCall.publish, hmod]
    rw [openedAt, openedAt, List.any_cons, hevicts, Bool.false_or, List.findSome?_cons, htime]

/-! ## First events -/

/-- What is no event of this kind is not the first. -/
theorem firstIn_cons_of_not_event (h : event call = none) :
    firstIn event (call :: past) mdSeq = firstIn event past mdSeq := by
  rw [firstIn, h, Option.bind_none, Option.or_none]

/-- An event of another number is not the first of this one. -/
theorem firstIn_cons_of_ne {other : ℕ} {t : Int64} (h : event call = some (other, t))
    (hne : other ≠ mdSeq) : firstIn event (call :: past) mdSeq = firstIn event past mdSeq := by
  rw [firstIn, h, Option.bind_some, if_neg fun hp => hne hp.1, Option.or_none]

/-- The first event of a book, after one more. -/
theorem firstIn_cons_self {t : Int64} (h : event call = some (mdSeq, t)) :
    firstIn event (call :: past) mdSeq =
      (firstIn event past mdSeq).or (if (openedAt past mdSeq).isSome then some t else none) := by
  rw [firstIn, h, Option.bind_some]
  simp only [true_and]

/-- A book that was never published has none. -/
theorem firstIn_eq_none (h : ∀ c ∈ past, ∀ p ∈ c.publish, p.1 ≠ mdSeq) :
    firstIn event past mdSeq = none := by
  induction past with
  | nil => rfl
  | cons c past ih =>
    have hpast := fun c' hc' => h c' (List.mem_cons_of_mem c hc')
    rw [firstIn, ih hpast, openedAt_eq_none hpast, Option.none_or, Option.bind_eq_none_iff]
    exact fun p _ => if_neg fun hp => by cases hp.2

/-- A write that is stamped is not zero. -/
theorem firstIn_ne_zero (h : Ascending past) {t : Int64}
    (ht : firstIn BenchCall.write past mdSeq = some t) : t ≠ 0 := by
  induction past with
  | nil => cases ht
  | cons c past ih =>
    rw [firstIn, Option.or_eq_some_iff] at ht
    rcases ht with ht | ⟨-, ht⟩
    · exact ih h.tail ht
    · obtain ⟨p, hp, hif⟩ := Option.bind_eq_some_iff.mp ht
      split_ifs at hif
      cases hif
      exact h.nonzero c List.mem_cons_self p hp

end Windows

/-! ## The slots -/

namespace BenchRecorder

variable {r : BenchRecorder} {mdSeq other : ℕ} {sample : Int64}

section Fields

/-- A sample leaves the slots alone. -/
@[simp]
theorem slots_appendM0M0p : (r.appendM0M0p sample).slots = r.slots := rfl

/-- A sample leaves the slots alone. -/
@[simp]
theorem slots_appendM0pM3 : (r.appendM0pM3 sample).slots = r.slots := rfl

/-- A sample leaves the slots alone. -/
@[simp]
theorem slots_appendM0M3 : (r.appendM0M3 sample).slots = r.slots := rfl

/-- A book is found in its slot, or not at all. -/
theorem find_of_slot {slot : Slot} (h : r.slots (slotOf mdSeq) = slot) :
    r.find mdSeq =
      if mdSeq = 0 then none else if slot.mdSeq = mdSeq then some slot else none := by
  subst h
  rfl

/-- Finding looks at the slots only. -/
theorem find_congr {r' : BenchRecorder} (h : r'.slots = r.slots) :
    r'.find mdSeq = r.find mdSeq := by
  rw [find_of_slot (congrFun h (slotOf mdSeq))]
  rfl

/-- What is found is the book. -/
theorem mdSeq_of_find {slot : Slot} (h : r.find mdSeq = some slot) :
    slot.mdSeq = mdSeq ∧ mdSeq ≠ 0 := by
  rw [find] at h
  split_ifs at h with hzero hown
  cases h
  exact ⟨hown, hzero⟩

/-- An assignment to a slot is to the number that owns it, and to no other. -/
theorem find_setSlot {slot : Slot} (hslot : slot.mdSeq = mdSeq) (hpos : mdSeq ≠ 0) (other : ℕ) :
    (r.setSlot mdSeq slot).find other =
      if other = mdSeq then some slot
      else if slotOf other = slotOf mdSeq then none
      else r.find other := by
  by_cases heq : other = mdSeq
  · subst heq
    have hown : (r.setSlot other slot).slots (slotOf other) = slot := Function.update_self ..
    rw [find_of_slot hown, if_neg hpos, if_pos rfl, if_pos hslot]
  · rw [if_neg heq]
    split_ifs with hsame
    · have hown : (r.setSlot mdSeq slot).slots (slotOf other) = slot := by
        rw [hsame]
        exact Function.update_self ..
      rw [find_of_slot hown, hslot, if_neg (Ne.symm heq), ite_self]
    · have hold : (r.setSlot mdSeq slot).slots (slotOf other) = r.slots (slotOf other) :=
        Function.update_of_ne hsame ..
      rw [find_of_slot hold]
      rfl

end Fields

/-- What the slot of a number knows of it. -/
def slotAfter (past : List BenchCall) (mdSeq : ℕ) (m0Ns : Int64) : Slot where
  mdSeq
  m0Ns
  m0pNs := (firstIn BenchCall.write past mdSeq).getD 0
  m3Taken := (firstIn BenchCall.echo past mdSeq).isSome

/-- `find` returns a slot just while the window of the number is open. -/
def Tracks (r : BenchRecorder) (past : List BenchCall) : Prop :=
  ∀ mdSeq, r.find mdSeq = (openedAt past mdSeq).map (slotAfter past mdSeq)

section Steps

variable {past : List BenchCall}

/-- A publish takes the slot over. -/
theorem Tracks.published (h : r.Tracks past) {m0Ns : Int64}
    (hpast : Ascending (.mdPublished mdSeq m0Ns :: past)) :
    (r.mdPublished mdSeq m0Ns).Tracks (.mdPublished mdSeq m0Ns :: past) := by
  intro q
  have hpos : mdSeq ≠ 0 := (hpast.positive _ List.mem_cons_self (mdSeq, m0Ns) rfl).ne'
  have hlater := hpast.head
  have hset : (r.mdPublished mdSeq m0Ns).find q = (r.setSlot mdSeq { mdSeq, m0Ns }).find q :=
    find_congr (by rw [mdPublished, if_neg hpos]; rfl)
  -- a publish is no event of either kind
  have hslot : slotAfter (.mdPublished mdSeq m0Ns :: past) q = slotAfter past q := by
    funext m0
    rw [slotAfter, firstIn_cons_of_not_event rfl, firstIn_cons_of_not_event rfl, slotAfter]
  have hown : ({ mdSeq, m0Ns } : Slot).mdSeq = mdSeq := rfl
  rw [hset, find_setSlot hown hpos, hslot]
  by_cases hq : q = mdSeq
  · subst hq
    have hnew : ∀ c ∈ past, ∀ p ∈ c.publish, p.1 ≠ q := fun c hc p hp => (hlater c hc p hp).ne
    rw [if_pos rfl, openedAt_publish_self hlater, Option.map_some, slotAfter, firstIn_eq_none hnew,
      firstIn_eq_none hnew]
    rfl
  · rw [if_neg hq, openedAt_publish_of_ne hq hlater, h q]
    by_cases hsame : slotOf q = slotOf mdSeq
    · rw [if_pos hsame, if_pos hsame, Option.map_none]
    · rw [if_neg hsame, if_neg hsame]

/-- The slot that `find` returns belongs to the number. -/
theorem find_setSlot_of_find {old slot : Slot} (h : r.find mdSeq = some old)
    (hslot : slot.mdSeq = mdSeq) (q : ℕ) :
    (r.setSlot mdSeq slot).find q = if q = mdSeq then some slot else r.find q := by
  obtain ⟨hown, hpos⟩ := mdSeq_of_find h
  rw [find_setSlot hslot hpos]
  by_cases hq : q = mdSeq
  · rw [if_pos hq, if_pos hq]
  rw [if_neg hq, if_neg hq]
  split_ifs with hsame
  · -- no other number of the slot was found before
    have hold : r.slots (slotOf q) = old := by
      rw [hsame]
      rw [find, if_neg hpos] at h
      split_ifs at h
      exact Option.some.inj h
    rw [find_of_slot hold, hown, if_neg (Ne.symm hq), ite_self]
  · rfl

/-- An event of a number touches the slot of no other one. -/
theorem slotAfter_of_ne {call : BenchCall} {q : ℕ}
    (hwrite : ∀ p ∈ call.write, p.1 ≠ q) (hecho : ∀ p ∈ call.echo, p.1 ≠ q) :
    slotAfter (call :: past) q = slotAfter past q := by
  have hfirst : ∀ event : BenchCall → Option (ℕ × Int64), (∀ p ∈ event call, p.1 ≠ q) →
      firstIn event (call :: past) q = firstIn event past q := by
    intro event hother
    cases hevent : event call with
    | none => exact firstIn_cons_of_not_event hevent
    | some p => exact firstIn_cons_of_ne hevent (hother p hevent)
  funext m0
  rw [slotAfter, hfirst _ hwrite, hfirst _ hecho, slotAfter]

/-- A write concerns its own book. -/
theorem slotAfter_written_of_ne {q : ℕ} {m0pNs : Int64} (hq : mdSeq ≠ q) :
    slotAfter (.mdWritten mdSeq m0pNs :: past) q = slotAfter past q := by
  apply slotAfter_of_ne
  · rintro p ⟨⟩
    exact hq
  · rintro p ⟨⟩

/-- So does an order. -/
theorem slotAfter_echoed_of_ne {q : ℕ} {m3Ns : Int64} (hq : mdSeq ≠ q) :
    slotAfter (.orderFor mdSeq m3Ns :: past) q = slotAfter past q := by
  apply slotAfter_of_ne
  · rintro p ⟨⟩
  · rintro p ⟨⟩
    exact hq

/-- A write stores its time if it is the first, and records a sample. -/
theorem Tracks.mdWritten_eq (h : r.Tracks past) (hpast : Ascending past) (m0pNs : Int64) :
    (writeSample past (.mdWritten mdSeq m0pNs) = none ∧
        ((openedAt past mdSeq).isSome → (firstIn BenchCall.write past mdSeq).isSome) ∧
        r.mdWritten mdSeq m0pNs = r) ∨
      ∃ m0Ns, openedAt past mdSeq = some m0Ns ∧ firstIn BenchCall.write past mdSeq = none ∧
        writeSample past (.mdWritten mdSeq m0pNs) = some (m0pNs - m0Ns) ∧
        r.mdWritten mdSeq m0pNs =
          (r.setSlot mdSeq { slotAfter past mdSeq m0Ns with m0pNs }).appendM0M0p
            (m0pNs - m0Ns) := by
  have hsample : writeSample past (.mdWritten mdSeq m0pNs) =
      if firstIn BenchCall.write past mdSeq = none then (openedAt past mdSeq).map (m0pNs - ·)
      else none := rfl
  rw [hsample, mdWritten, h mdSeq]
  cases hopen : openedAt past mdSeq with
  | none => exact Or.inl ⟨ite_self _, fun h => absurd h Bool.false_ne_true, rfl⟩
  | some m0Ns =>
    dsimp only [Option.map_some]
    cases hfirst : firstIn BenchCall.write past mdSeq with
    | none =>
      have hzero : (slotAfter past mdSeq m0Ns).m0pNs = 0 := by rw [slotAfter, hfirst]; rfl
      rw [hzero, if_neg (not_not_intro rfl)]
      exact Or.inr ⟨m0Ns, rfl, rfl, rfl, rfl⟩
    | some t =>
      have ht : (slotAfter past mdSeq m0Ns).m0pNs = t := by rw [slotAfter, hfirst]; rfl
      rw [ht, if_pos (firstIn_ne_zero hpast hfirst), if_neg (Option.some_ne_none t)]
      exact Or.inl ⟨rfl, fun _ => rfl, rfl⟩

/-- An echo marks the slot if it is the first, and records a sample or two. -/
theorem Tracks.orderFor_eq (h : r.Tracks past) (hpast : Ascending past) (m3Ns : Int64) :
    (echoSample past (.orderFor mdSeq m3Ns) = none ∧
        deliverySample past (.orderFor mdSeq m3Ns) = none ∧
        ((openedAt past mdSeq).isSome → (firstIn BenchCall.echo past mdSeq).isSome) ∧
        r.orderFor mdSeq m3Ns = r) ∨
      ∃ m0Ns, openedAt past mdSeq = some m0Ns ∧ firstIn BenchCall.echo past mdSeq = none ∧
        echoSample past (.orderFor mdSeq m3Ns) = some (m3Ns - m0Ns) ∧
        deliverySample past (.orderFor mdSeq m3Ns) =
          (firstIn BenchCall.write past mdSeq).map (m3Ns - ·) ∧
        r.orderFor mdSeq m3Ns =
          ((firstIn BenchCall.write past mdSeq).elim
            (r.setSlot mdSeq { slotAfter past mdSeq m0Ns with m3Taken := true })
            fun t => (r.setSlot mdSeq
              { slotAfter past mdSeq m0Ns with m3Taken := true }).appendM0pM3
              (m3Ns - t)).appendM0M3 (m3Ns - m0Ns) := by
  have hecho : echoSample past (.orderFor mdSeq m3Ns) =
      if firstIn BenchCall.echo past mdSeq = none then (openedAt past mdSeq).map (m3Ns - ·)
      else none := rfl
  have hdelivery : deliverySample past (.orderFor mdSeq m3Ns) =
      if firstIn BenchCall.echo past mdSeq = none ∧ (openedAt past mdSeq).isSome then
        (firstIn BenchCall.write past mdSeq).map (m3Ns - ·)
      else none := rfl
  rw [hecho, hdelivery, orderFor, h mdSeq]
  cases hopen : openedAt past mdSeq with
  | none =>
    have hclosed (h : (none : Option Int64).isSome = true) : False := Bool.false_ne_true h
    exact Or.inl ⟨ite_self _, if_neg fun h => hclosed h.2, fun h => (hclosed h).elim, rfl⟩
  | some m0Ns =>
    dsimp only [Option.map_some]
    cases hfirst : firstIn BenchCall.echo past mdSeq with
    | some t =>
      have htaken : (slotAfter past mdSeq m0Ns).m3Taken = true := by rw [slotAfter, hfirst]; rfl
      rw [if_pos htaken]
      exact Or.inl ⟨rfl, rfl, fun _ => rfl, rfl⟩
    | none =>
      have hfresh : ¬ (slotAfter past mdSeq m0Ns).m3Taken = true := by
        rw [slotAfter, hfirst]
        exact Bool.false_ne_true
      rw [if_neg hfresh]
      refine Or.inr ⟨m0Ns, rfl, rfl, rfl, rfl, ?_⟩
      cases hwrite : firstIn BenchCall.write past mdSeq with
      | none =>
        have hzero : (slotAfter past mdSeq m0Ns).m0pNs = 0 := by rw [slotAfter, hwrite]; rfl
        rw [hzero, if_neg (not_not_intro rfl)]
        rfl
      | some t =>
        have ht : (slotAfter past mdSeq m0Ns).m0pNs = t := by rw [slotAfter, hwrite]; rfl
        rw [ht, if_pos (firstIn_ne_zero hpast hwrite)]
        rfl

/-- The first write of a book is noted in its slot. -/
theorem Tracks.written (h : r.Tracks past) {m0pNs : Int64}
    (hpast : Ascending (.mdWritten mdSeq m0pNs :: past)) :
    (r.mdWritten mdSeq m0pNs).Tracks (.mdWritten mdSeq m0pNs :: past) := by
  intro q
  have hself : BenchCall.write (.mdWritten mdSeq m0pNs) = some (mdSeq, m0pNs) := rfl
  have hecho : BenchCall.echo (.mdWritten mdSeq m0pNs) = none := rfl
  rw [openedAt_cons_of_not_publish rfl]
  rcases h.mdWritten_eq hpast.tail m0pNs with ⟨-, hknown, heq⟩ | ⟨m0Ns, hopen, hfirst, -, heq⟩
  · rw [heq, h q]
    refine Option.map_congr fun m0 hm0 => ?_
    by_cases hq : mdSeq = q
    · -- the time of the first write stays
      subst hq
      obtain ⟨t, ht⟩ := Option.isSome_iff_exists.mp (hknown (by rw [hm0]; rfl))
      rw [slotAfter, slotAfter, firstIn_cons_self hself, firstIn_cons_of_not_event hecho, ht]
      rfl
    · rw [slotAfter_written_of_ne hq]
  · have hfind : r.find mdSeq = some (slotAfter past mdSeq m0Ns) := by
      rw [h mdSeq, hopen, Option.map_some]
    rw [heq, find_congr slots_appendM0M0p, find_setSlot_of_find hfind rfl]
    split_ifs with hq
    · subst hq
      rw [hopen, Option.map_some, slotAfter, slotAfter, firstIn_cons_self hself,
        firstIn_cons_of_not_event hecho, hfirst, hopen]
      rfl
    · rw [slotAfter_written_of_ne (Ne.symm hq), h q]

/-- So is its first order. -/
theorem Tracks.echoed (h : r.Tracks past) {m3Ns : Int64} (hpast : Ascending past) :
    (r.orderFor mdSeq m3Ns).Tracks (.orderFor mdSeq m3Ns :: past) := by
  intro q
  have hself : BenchCall.echo (.orderFor mdSeq m3Ns) = some (mdSeq, m3Ns) := rfl
  have hwrite : BenchCall.write (.orderFor mdSeq m3Ns) = none := rfl
  rw [openedAt_cons_of_not_publish rfl]
  rcases h.orderFor_eq hpast m3Ns with ⟨-, -, hknown, heq⟩ | ⟨m0Ns, hopen, hfirst, -, -, heq⟩
  · rw [heq, h q]
    refine Option.map_congr fun m0 hm0 => ?_
    by_cases hq : mdSeq = q
    · subst hq
      obtain ⟨t, ht⟩ := Option.isSome_iff_exists.mp (hknown (by rw [hm0]; rfl))
      rw [slotAfter, slotAfter, firstIn_cons_self hself, firstIn_cons_of_not_event hwrite, ht]
      rfl
    · rw [slotAfter_echoed_of_ne hq]
  · have hfind : r.find mdSeq = some (slotAfter past mdSeq m0Ns) := by
      rw [h mdSeq, hopen, Option.map_some]
    have hslots : (r.orderFor mdSeq m3Ns).slots =
        (r.setSlot mdSeq { slotAfter past mdSeq m0Ns with m3Taken := true }).slots := by
      rw [heq, slots_appendM0M3]
      cases firstIn BenchCall.write past mdSeq with
      | none => rfl
      | some t => rfl
    rw [find_congr hslots, find_setSlot_of_find hfind rfl]
    split_ifs with hq
    · subst hq
      rw [hopen, Option.map_some, slotAfter, slotAfter, firstIn_cons_self hself,
        firstIn_cons_of_not_event hwrite, hfirst, hopen]
      rfl
    · rw [slotAfter_echoed_of_ne (Ne.symm hq), h q]

/-- Each call keeps the slots in step with the history. -/
theorem Tracks.called (h : r.Tracks past) {call : BenchCall} (hpast : Ascending (call :: past)) :
    (r.call call).Tracks (call :: past) := by
  cases call with
  | mdPublished mdSeq m0Ns => exact h.published hpast
  | mdWritten mdSeq m0pNs => exact h.written hpast
  | orderFor mdSeq m3Ns => exact h.echoed hpast.tail
  | svc e2MinusE1Ns =>
    intro q
    have hslot : slotAfter (.svc e2MinusE1Ns :: past) q = slotAfter past q := by
      apply slotAfter_of_ne <;> rintro p ⟨⟩
    have hslots : (r.call (.svc e2MinusE1Ns)).slots = r.slots := rfl
    rw [find_congr hslots, openedAt_cons_of_not_publish rfl, hslot, h q]

/-- So the slots say what the history says. -/
theorem after_tracks {capacity : ℕ} (hpast : Ascending past) :
    (after capacity past).Tracks past := by
  induction past with
  | nil =>
    intro q
    have hempty : (after capacity []).slots (slotOf q) = {} := rfl
    have hopen : openedAt [] q = none := rfl
    rw [find_of_slot hempty, hopen, Option.map_none]
    split_ifs with hzero hown
    · rfl
    · exact absurd hown.symm hzero
    · rfl
  | cons call past ih => exact (ih hpast.tail).called hpast

end Steps

/-! ## The streams -/

section Streams

variable {past : List BenchCall} {capacity : ℕ}

/-- A stream keeps the first samples, as many as it has reserved. -/
theorem append_take {xs : List Int64} (hcapacity : r.capacity = capacity) :
    (r.append (xs.take capacity) sample).1 = (xs ++ [sample]).take capacity := by
  rw [append, hcapacity]
  split_ifs with hfull
  · have hle : capacity ≤ xs.length := by
      rw [List.length_take] at hfull
      exact min_eq_left_iff.mp hfull
    rw [List.take_append_of_le_length hle]
  · have hlt : xs.length < capacity := by
      rw [List.length_take] at hfull
      omega
    have hroom : (xs ++ [sample]).length ≤ capacity := by
      rw [List.length_append, List.length_singleton]
      exact hlt
    rw [List.take_of_length_le hlt.le, List.take_of_length_le hroom]

/-- Whether a stream takes a sample depends on what it has reserved alone. -/
theorem append_congr {r' : BenchRecorder} (hcapacity : r'.capacity = r.capacity) (xs : List Int64) :
    (r'.append xs sample).1 = (r.append xs sample).1 := by
  rw [append, append, hcapacity]
  split_ifs
  · rfl
  · rfl

/-- A sample is appended while there is room. -/
theorem append_toList {xs : List Int64} (new : Option Int64) (hcapacity : r.capacity = capacity) :
    new.elim (xs.take capacity) (fun sample => (r.append (xs.take capacity) sample).1) =
      (xs ++ new.toList).take capacity := by
  cases new with
  | none => rw [Option.toList_none, List.append_nil, Option.elim_none]
  | some sample => exact append_take hcapacity

/-- The streams of the recorder are these samples, as far as there was room. -/
structure Records (r : BenchRecorder) (capacity : ℕ) (past : List BenchCall) : Prop where
  reserved : r.capacity = capacity
  m0M0p : r.m0M0p = (samples writeSample past).take capacity
  m0pM3 : r.m0pM3 = (samples deliverySample past).take capacity
  m0M3 : r.m0M3 = (samples echoSample past).take capacity
  svc : r.svc = (samples svcSample past).take capacity

/-- A call appends to each stream the sample that its rule gives, if any. -/
theorem Records.step {r' : BenchRecorder} {call : BenchCall} (h : r.Records capacity past)
    (hcapacity : r'.capacity = r.capacity)
    (hm0M0p : r'.m0M0p =
      (writeSample past call).elim r.m0M0p fun sample => (r.append r.m0M0p sample).1)
    (hm0pM3 : r'.m0pM3 =
      (deliverySample past call).elim r.m0pM3 fun sample => (r.append r.m0pM3 sample).1)
    (hm0M3 : r'.m0M3 =
      (echoSample past call).elim r.m0M3 fun sample => (r.append r.m0M3 sample).1)
    (hsvc : r'.svc = (svcSample past call).elim r.svc fun sample => (r.append r.svc sample).1) :
    r'.Records capacity (call :: past) where
  reserved := hcapacity.trans h.reserved
  m0M0p := by rw [hm0M0p, h.m0M0p, append_toList _ h.reserved, samples]
  m0pM3 := by rw [hm0pM3, h.m0pM3, append_toList _ h.reserved, samples]
  m0M3 := by rw [hm0M3, h.m0M3, append_toList _ h.reserved, samples]
  svc := by rw [hsvc, h.svc, append_toList _ h.reserved, samples]

/-- Each call records what the history says. -/
theorem Records.called {call : BenchCall} (h : r.Records capacity past) (ht : r.Tracks past)
    (hpast : Ascending past) : (r.call call).Records capacity (call :: past) := by
  cases call with
  | mdPublished mdSeq m0Ns =>
    have hfields : (r.mdPublished mdSeq m0Ns).m0M0p = r.m0M0p ∧
        (r.mdPublished mdSeq m0Ns).m0pM3 = r.m0pM3 ∧ (r.mdPublished mdSeq m0Ns).m0M3 = r.m0M3 ∧
        (r.mdPublished mdSeq m0Ns).svc = r.svc ∧
        (r.mdPublished mdSeq m0Ns).capacity = r.capacity := by
      rw [mdPublished]
      split_ifs
      · exact ⟨rfl, rfl, rfl, rfl, rfl⟩
      · exact ⟨rfl, rfl, rfl, rfl, rfl⟩
    obtain ⟨hm0M0p, hm0pM3, hm0M3, hsvc, hcapacity⟩ := hfields
    exact h.step hcapacity hm0M0p hm0pM3 hm0M3 hsvc
  | svc e2MinusE1Ns => exact h.step rfl rfl rfl rfl rfl
  | mdWritten mdSeq m0pNs =>
    rcases ht.mdWritten_eq hpast m0pNs with ⟨hnone, -, heq⟩ | ⟨m0Ns, -, -, hsome, heq⟩
    · rw [call, heq]
      exact h.step rfl (by rw [hnone]; rfl) rfl rfl rfl
    · rw [call, heq]
      exact h.step rfl (by rw [hsome]; rfl) rfl rfl rfl
  | orderFor mdSeq m3Ns =>
    rcases ht.orderFor_eq hpast m3Ns with ⟨hecho, hdelivery, -, heq⟩ |
      ⟨m0Ns, -, -, hecho, hdelivery, heq⟩
    · rw [call, heq]
      exact h.step rfl rfl (by rw [hdelivery]; rfl) (by rw [hecho]; rfl) rfl
    · rw [call, heq]
      -- the stream of the other sample is not touched
      cases hwrite : firstIn BenchCall.write past mdSeq with
      | none =>
        rw [hwrite] at hdelivery
        exact h.step rfl rfl (by rw [hdelivery]; rfl) (by rw [hecho]; rfl) rfl
      | some t =>
        rw [hwrite] at hdelivery
        refine h.step rfl rfl (by rw [hdelivery]; rfl) ?_ rfl
        rw [hecho]
        have hcapacity : ((r.setSlot mdSeq
            { slotAfter past mdSeq m0Ns with m3Taken := true }).appendM0pM3 (m3Ns - t)).capacity =
              r.capacity := rfl
        exact append_congr hcapacity r.m0M3

/-- So the samples are those of the history. -/
theorem after_records (hpast : Ascending past) : (after capacity past).Records capacity past := by
  induction past with
  | nil =>
    have hnil : ([] : List Int64) = ([] : List Int64).take capacity := List.take_nil.symm
    exact ⟨rfl, hnil, hnil, hnil, hnil⟩
  | cons call past ih => exact (ih hpast.tail).called (after_tracks hpast.tail) hpast.tail

/-- A stream that still has room holds every sample. -/
theorem eq_of_not_full {xs : List Int64} (h : (xs.take capacity).length < capacity) :
    xs.take capacity = xs := by
  rw [List.length_take] at h
  exact List.take_of_length_le (by omega)

/-- A call that names a number without a window changes nothing. -/
theorem Tracks.unchanged (h : r.Tracks past) (hclosed : openedAt past mdSeq = none) (t : Int64) :
    r.mdWritten mdSeq t = r ∧ r.orderFor mdSeq t = r := by
  have hfind : r.find mdSeq = none := by rw [h mdSeq, hclosed, Option.map_none]
  rw [mdWritten, orderFor, hfind]
  exact ⟨rfl, rfl⟩

/-- Zero, a number never published and a number evicted have no window. -/
theorem openedAt_eq_none_of {calls : List BenchCall} (h : Ascending calls.reverse)
    (hq : mdSeq = 0 ∨ (∀ m0Ns, BenchCall.mdPublished mdSeq m0Ns ∉ calls) ∨
      ∃ larger m0Ns, BenchCall.mdPublished larger m0Ns ∈ calls ∧ mdSeq < larger ∧
        larger % kCorrelationSlots = mdSeq % kCorrelationSlots) :
    openedAt calls.reverse mdSeq = none := by
  rcases hq with rfl | hnever | ⟨larger, m0Ns, hmem, hlater, hslot⟩
  · exact openedAt_eq_none fun c hc p hp => (h.positive c hc p hp).ne'
  · refine openedAt_eq_none fun c hc p hp heq => ?_
    cases c with
    | mdPublished q m0Ns =>
      cases hp
      subst heq
      exact hnever m0Ns (List.mem_reverse.mp hc)
    | _ => cases hp
  · have hevicted : calls.reverse.any (BenchCall.evicts mdSeq) = true := by
      rw [List.any_eq_true]
      refine ⟨_, List.mem_reverse.mpr hmem, ?_⟩
      simp [BenchCall.evicts, BenchCall.publish, hlater, hslot]
    rw [openedAt, if_pos hevicted]

/-- Each stream with room left holds what its rule takes from the calls, in their order; a call that
names zero, a number never published or one evicted leaves the whole recorder as it was. -/
theorem run_correlates (capacity : ℕ) (calls : List BenchCall) (h : Ascending calls.reverse) :
    ((run capacity calls).m0M0p.length < capacity →
        (run capacity calls).m0M0p = samples writeSample calls.reverse) ∧
      ((run capacity calls).m0pM3.length < capacity →
        (run capacity calls).m0pM3 = samples deliverySample calls.reverse) ∧
      ((run capacity calls).m0M3.length < capacity →
        (run capacity calls).m0M3 = samples echoSample calls.reverse) ∧
      ((run capacity calls).svc.length < capacity →
        (run capacity calls).svc = samples svcSample calls.reverse) ∧
      ∀ mdSeq t, (mdSeq = 0 ∨ (∀ m0Ns, BenchCall.mdPublished mdSeq m0Ns ∉ calls) ∨
          ∃ larger m0Ns, BenchCall.mdPublished larger m0Ns ∈ calls ∧ mdSeq < larger ∧
            larger % kCorrelationSlots = mdSeq % kCorrelationSlots) →
        (run capacity calls).mdWritten mdSeq t = run capacity calls ∧
          (run capacity calls).orderFor mdSeq t = run capacity calls := by
  have hrecords : (after capacity calls.reverse).Records capacity calls.reverse := after_records h
  have htracks : (after capacity calls.reverse).Tracks calls.reverse := after_tracks h
  rw [run_eq, hrecords.m0M0p, hrecords.m0pM3, hrecords.m0M3, hrecords.svc]
  refine ⟨eq_of_not_full, eq_of_not_full, eq_of_not_full, eq_of_not_full, fun mdSeq t hq => ?_⟩
  exact htracks.unchanged (openedAt_eq_none_of h hq) t

/-- Two numbers of one slot: the second takes the window of the first. -/
theorem run_correlates_evicted :
    ∃ calls : List BenchCall,
      calls = [.mdPublished 1 100, .mdWritten 1 103, .orderFor 1 110, .orderFor 1 120,
        .mdPublished 65537 200, .orderFor 1 210, .orderFor 65537 220, .mdWritten 65537 230] ∧
      (run 4 calls).m0M0p = [3, 30] ∧ (run 4 calls).m0pM3 = [7] ∧ (run 4 calls).m0M3 = [10, 20] ∧
      (run 4 calls).mdWritten 1 300 = run 4 calls := by
  refine ⟨_, rfl, ?_⟩
  have hcalls : Ascending [.mdWritten 65537 230, .orderFor 65537 220, .orderFor 1 210,
      .mdPublished 65537 200, .orderFor 1 120, .orderFor 1 110, .mdWritten 1 103,
      .mdPublished 1 100] := by
    constructor
    · decide
    · decide
    · decide
  obtain ⟨hm0M0p, hm0pM3, hm0M3, -, hclosed⟩ := run_correlates 4
    [.mdPublished 1 100, .mdWritten 1 103, .orderFor 1 110, .orderFor 1 120,
      .mdPublished 65537 200, .orderFor 1 210, .orderFor 65537 220, .mdWritten 65537 230] hcalls
  refine ⟨(hm0M0p (by decide)).trans (by decide), (hm0pM3 (by decide)).trans (by decide),
    (hm0M3 (by decide)).trans (by decide), (hclosed 1 300 ?_).1⟩
  exact Or.inr (Or.inr ⟨65537, 200, by decide, by decide, by decide⟩)

end Streams

end BenchRecorder

end MarketMaker
