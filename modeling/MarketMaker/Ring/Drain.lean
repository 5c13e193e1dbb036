import MarketMaker.Ring.Writer

/-!
# What the telemetry writer drains

The telemetry ring is a queue (`QueueInv`), and a batch never asks it for more than was seen when
the batch began, so that `try_pop` cannot come back empty inside one. What is left to prove is about
the places of the writer: how much of the latest batch each of them owes, and how many batches can
still begin from it.
-/

namespace MarketMaker

namespace TelemetryWriter

open MarketMaker.Ring

variable {cfg : Config} {α : Type*}

/-! ## The invariant -/

/-- The call of the ring that the writer is inside. -/
def Phase.Calls (phase : Phase) (consumer : Consumer α) : Prop :=
  match phase with
  | .budgeting _ | .peeking | .closing => consumer.IsPending
  | .popping _ _ => consumer.IsPopping
  | _ => consumer = .idle

/-- The records of the latest batch that are still to be popped. -/
def Phase.owed : Phase → ℕ
  | .draining _ budget => budget
  | .popping _ budget => budget + 1
  | _ => 0

/-- The loop is left. -/
def Phase.IsLast : Phase → Prop
  | .drain last | .budgeting last | .draining last _ | .popping last _ | .flushing last =>
    last = true
  | .locking | .peeking | .waiting => False
  | .marking | .closing | .ending | .ended => True

/-- The loop is left and the budget of the final drain is read. -/
def Phase.IsCut : Phase → Prop
  | .drain _ | .budgeting _ | .locking | .peeking | .waiting => False
  | .draining last _ | .popping last _ | .flushing last => last = true
  | .marking | .closing | .ending | .ended => True

/-- The marker is written. -/
def Phase.IsClosed : Phase → Prop
  | .ending | .ended => True
  | _ => False

/-- Between the reading of a budget and the end of its `drain()`. -/
def Phase.Within (last : Bool) : Phase → Prop
  | .draining l _ | .popping l _ | .flushing l => l = last
  | _ => False

/-- The most drains that can still begin once the request is made. -/
def Phase.due : Phase → ℕ
  | .drain false | .peeking => 2
  | .budgeting false | .draining false _ | .popping false _ | .flushing false => 1
  | .drain true | .locking | .waiting => 1
  | _ => 0

/-- What holds between any two accesses. -/
structure Inv (slots : Fin cfg.capacity.size.toNat → α) (t : Account cfg α) : Prop where
  queue : QueueInv slots t.state.ring t.log
  calls : t.state.phase.Calls t.state.ring.consumer
  cutoff : t.state.ring.head.now + t.state.phase.owed = t.entered + t.pending
  seen : t.entered + t.pending ≤ t.state.ring.tailSeen
  taken : t.state.lines.length + t.state.lostLines = (poppedIn t.log).length
  order : t.state.lines.Sublist (poppedIn t.log)
  joined : t.state.joined = t.state.stop
  request : t.state.stop = true →
    t.requested = t.state.stopSeen ∧ t.state.stopSeen ≤ t.state.ring.tail.now
  last : t.state.phase.IsLast →
    t.state.stop = true ∧ t.state.stopSeen ≤ t.state.ring.tailSeen
  cut : t.state.phase.IsCut → t.state.stopSeen ≤ t.entered + t.pending
  /-- The request needs the mutex. -/
  held : t.state.phase = .peeking → t.state.stop = false
  unasked : t.state.stop = false → t.begun = 0
  begun : t.begun + t.state.phase.due ≤ 2
  closed : ∀ m, t.state.closeLine = some m →
    t.state.phase.IsClosed ∧
      t.entered + t.pending + m.pendingLeft.toNat ≤ t.state.ring.tail.now

/-- A writer starts with nothing taken. -/
theorem inv_init (slots : Fin cfg.capacity.size.toNat → α) (failed : Bool) :
    Inv slots
      { state := .init cfg slots failed, log := [], requested := 0, begun := 0, entered := 0,
        pending := 0 } where
  queue := queueInv_init slots
  calls := rfl
  cutoff := rfl
  seen := le_rfl
  taken := rfl
  order := .slnil
  joined := rfl
  request := fun hstop => by contradiction
  last := fun hlast => by contradiction
  cut := False.elim
  held := fun hheld => by contradiction
  unasked := fun _ => rfl
  begun := le_rfl
  closed := fun _ hm => by contradiction

section Step

variable {slots : Fin cfg.capacity.size.toNat → α} {t : Account cfg α}

/-- The writer is the consumer of the queue. -/
theorem consumer_onQueue (lag : ℕ) : (Ring.Act.consumer lag : Ring.Act α).OnQueue := trivial

/-- A step of the producer. -/
theorem Inv.ofProducer (h : Inv slots t) {act : Ring.Act α} (hact : act.OnQueue)
    (hframe : (Ring.step t.state.ring act).1.head = t.state.ring.head ∧
      (Ring.step t.state.ring act).1.consumer = t.state.ring.consumer ∧
      (Ring.step t.state.ring act).1.tailSeen = t.state.ring.tailSeen ∧
      (Ring.step t.state.ring act).2.filterMap Event.popped? = []) :
    Inv slots { t with
      state := { t.state with ring := (Ring.step t.state.ring act).1 }
      log := t.log ++ [(act, (Ring.step t.state.ring act).2)] } := by
  obtain ⟨hhead, hconsumer, hseen, hpopped⟩ := hframe
  have hqueue := h.queue.step hact
  have hgrows : t.state.ring.tail.now ≤ (Ring.step t.state.ring act).1.tail.now := by
    rw [← h.queue.inv.length, ← hqueue.inv.length, accepted_concat, List.length_append]
    exact Nat.le_add_right _ _
  constructor
  case queue => exact hqueue
  case calls => rw [hconsumer]; exact h.calls
  case cutoff => rw [hhead]; exact h.cutoff
  case seen => rw [hseen]; exact h.seen
  case taken => rw [poppedIn_concat, hpopped, List.append_nil]; exact h.taken
  case order => rw [poppedIn_concat, hpopped, List.append_nil]; exact h.order
  case joined => exact h.joined
  case request => exact fun hstop => ⟨(h.request hstop).1, (h.request hstop).2.trans hgrows⟩
  case last => rw [hseen]; exact h.last
  case cut => exact h.cut
  case held => exact h.held
  case unasked => exact h.unasked
  case begun => exact h.begun
  case closed => exact fun m hm => ⟨(h.closed m hm).1, (h.closed m hm).2.trans hgrows⟩

/-- What a move of the writer to another phase needs when it pops nothing, reads no budget and
writes no marker. -/
structure Moves (t : Account cfg α) (phase : Phase) (consumer : Consumer α) (tailSeen begun : ℕ) :
    Prop where
  calls : phase.Calls consumer
  seen : t.state.ring.tailSeen ≤ tailSeen
  owed : phase.owed = t.state.phase.owed
  last : phase.IsLast → t.state.stop = true ∧ t.state.stopSeen ≤ tailSeen
  cut : phase.IsCut → t.state.phase.IsCut
  held : phase = .peeking → t.state.stop = false
  unasked : t.state.stop = false → begun = 0
  begun : begun + phase.due ≤ 2
  closed : t.state.phase.IsClosed → phase.IsClosed

/-- A move of the writer that pops nothing. -/
theorem Inv.move (h : Inv slots t) {phase : Phase} {consumer : Consumer α} {tailSeen begun : ℕ}
    (hmoves : Moves t phase consumer tailSeen begun) {log : Log α} {outputFailed : Bool}
    (hqueue : QueueInv slots { t.state.ring with consumer := consumer, tailSeen := tailSeen } log)
    (hpopped : poppedIn log = poppedIn t.log) :
    Inv slots { t with
      state := { t.state with
        ring := { t.state.ring with consumer := consumer, tailSeen := tailSeen }
        phase := phase
        outputFailed := outputFailed }
      log := log
      begun := begun } where
  queue := hqueue
  calls := hmoves.calls
  cutoff := by
    dsimp only
    rw [hmoves.owed, h.cutoff]
  seen := h.seen.trans hmoves.seen
  taken := by
    dsimp only
    rw [hpopped, h.taken]
  order := by
    dsimp only
    rw [hpopped]
    exact h.order
  joined := h.joined
  request := h.request
  last := hmoves.last
  cut := fun hcut => h.cut (hmoves.cut hcut)
  held := hmoves.held
  unasked := hmoves.unasked
  begun := hmoves.begun
  closed := fun m hm => ⟨hmoves.closed (h.closed m hm).1, (h.closed m hm).2⟩

/-- The start of a call of the ring. -/
theorem Inv.call (h : Inv slots t) {phase : Phase} {consumer : Consumer α} {begun : ℕ}
    (hmoves : Moves t phase consumer t.state.ring.tailSeen begun) {act : Ring.Act α}
    (hring : Ring.step t.state.ring act = ({ t.state.ring with consumer := consumer }, []))
    (hact : act.OnQueue) :
    Inv slots { t with
      state := { t.state with
        ring := { t.state.ring with consumer := consumer }
        phase := phase }
      log := t.log ++ [(act, [])]
      begun := begun } := by
  have hqueue := h.queue.step hact
  rw [hring] at hqueue
  exact h.move hmoves hqueue (by simp)

/-- The loop is left: whatever was accepted before the request is seen. -/
theorem Inv.leave (h : Inv slots t)
    (hphase : t.state.phase = .locking ∨ t.state.phase = .waiting) (hstop : t.state.stop = true) :
    Inv slots { t with state := t.state.leave } := by
  have hbegun := h.begun
  have hcalls := h.calls
  have hmoves : Moves t (.drain true) t.state.ring.consumer
      (max t.state.ring.tailSeen t.state.stopSeen) t.begun := by
    constructor
    case calls => obtain hphase | hphase := hphase <;> rw [hphase] at hcalls <;> exact hcalls
    case seen => exact le_max_left _ _
    case owed => obtain hphase | hphase := hphase <;> rw [hphase] <;> rfl
    case last => exact fun _ => ⟨hstop, le_max_right _ _⟩
    case cut => exact False.elim
    case held => rintro ⟨⟩
    case unasked => exact h.unasked
    case begun => obtain hphase | hphase := hphase <;> rw [hphase] at hbegun <;> exact hbegun
    case closed =>
      obtain hphase | hphase := hphase <;> rw [hphase] <;> exact False.elim
  exact h.move hmoves (h.queue.see (h.request hstop).2) rfl

/-- `drain()` is called. -/
theorem Inv.drain (h : Inv slots t) {last : Bool} (hphase : t.state.phase = .drain last)
    (lag : ℕ) : Inv slots (t.step (.writer lag)).1 := by
  have hcalls := h.calls
  have hlast := h.last
  have hbegun := h.begun
  have hunasked := h.unasked
  rw [hphase] at hcalls hlast hbegun
  have hring : Ring.step t.state.ring .consumerPending =
      ({ t.state.ring with consumer := .pending t.state.ring.head.now }, []) := by
    simp [Ring.step, show t.state.ring.consumer = .idle from hcalls]
  have hmoves : Moves t (.budgeting last) (.pending t.state.ring.head.now) t.state.ring.tailSeen
      (if t.state.stop then t.begun + 1 else t.begun) := by
    constructor
    case calls => trivial
    case seen => exact le_rfl
    case owed => rw [hphase]; rfl
    case last => exact hlast
    case cut => exact False.elim
    case held => rintro ⟨⟩
    case unasked =>
      intro hstop
      rw [hstop]
      exact hunasked hstop
    case begun =>
      -- before the request nothing is counted
      cases hstop : t.state.stop with
      | false =>
        rw [hunasked hstop] at hbegun ⊢
        cases last <;> simp [Phase.due]
      | true => cases last <;> simp only [Phase.due, if_true] at hbegun ⊢ <;> omega
    case closed =>
      rw [hphase]
      exact False.elim
  simpa [Account.step, step, writerStep, hphase, State.access, hring, begins, budgetRead]
    using h.call hmoves hring trivial

/-- The budget is read. -/
theorem Inv.budgeting (h : Inv slots t) {last : Bool} (hphase : t.state.phase = .budgeting last)
    (lag : ℕ) : Inv slots (t.step (.writer lag)).1 := by
  have hcalls := h.calls
  have hlast := h.last
  have hbegun := h.begun
  rw [hphase] at hcalls hlast hbegun
  obtain ⟨count, hring, hcount⟩ := h.queue.step_pending hcalls lag
  have hqueue := h.queue.step (consumer_onQueue lag)
  rw [hring] at hqueue
  have hview := t.state.ring.tail.le_view t.state.ring.tailSeen lag
  have hhead := h.queue.head_le_seen
  have hpops := h.queue.head_eq
  simp only [Account.step, step, writerStep, hphase, State.access, hring, begins, budgetRead,
    Bool.and_false, Bool.false_eq_true, if_false, Option.isSome_some, if_true, Option.getD_some,
    Bool.not_and_self]
  constructor
  case queue => exact hqueue
  case calls => rfl
  case cutoff => exact congrArg (· + count.toNat) hpops
  case seen => dsimp only; omega
  case taken => simpa [List.filterMap_cons, Event.popped?] using h.taken
  case order => simpa [List.filterMap_cons, Event.popped?] using h.order
  case joined => exact h.joined
  case request => exact h.request
  case last => exact fun hl => ⟨(hlast hl).1, (hlast hl).2.trans hview⟩
  case cut =>
    intro hcut
    have := (hlast hcut).2
    dsimp only
    omega
  case held => rintro ⟨⟩
  case unasked => exact h.unasked
  case begun => cases last <;> exact hbegun
  case closed =>
    intro m hm
    have hend := (h.closed m hm).1
    rw [hphase] at hend
    exact hend.elim

/-- What a phase inside a drain says. -/
theorem Phase.Within.spec {last : Bool} {phase : Phase} (h : phase.Within last) :
    (phase.IsLast ↔ last = true) ∧ (phase.IsCut ↔ last = true) ∧ phase ≠ .peeking ∧
      phase.due = (if last then 0 else 1) ∧ ¬ phase.IsClosed := by
  cases phase with
  | draining l budget =>
    obtain rfl : l = last := h
    exact ⟨.rfl, .rfl, (by rintro ⟨⟩), by cases l <;> rfl, id⟩
  | popping l budget =>
    obtain rfl : l = last := h
    exact ⟨.rfl, .rfl, (by rintro ⟨⟩), by cases l <;> rfl, id⟩
  | flushing l =>
    obtain rfl : l = last := h
    exact ⟨.rfl, .rfl, (by rintro ⟨⟩), by cases l <;> rfl, id⟩
  | _ => exact h.elim

/-- A move inside a batch. -/
theorem Inv.within (h : Inv slots t) {last : Bool} (hphase : t.state.phase.Within last)
    {phase : Phase} (howed : phase.owed = t.state.phase.owed) (hnext : phase.Within last)
    {consumer : Consumer α} (hcalls : phase.Calls consumer) {tailSeen : ℕ}
    (hseen : t.state.ring.tailSeen ≤ tailSeen) : Moves t phase consumer tailSeen t.begun := by
  obtain ⟨hlast, hcut, -, hdue, hopen⟩ := hphase.spec
  obtain ⟨hlast', hcut', hheld', hdue', -⟩ := hnext.spec
  constructor
  case calls => exact hcalls
  case seen => exact hseen
  case owed => exact howed
  case last =>
    intro hl
    have htold := h.last (hlast.mpr (hlast'.mp hl))
    exact ⟨htold.1, htold.2.trans hseen⟩
  case cut => exact fun hc => hcut.mpr (hcut'.mp hc)
  case held => exact fun hheld => absurd hheld hheld'
  case unasked => exact h.unasked
  case begun =>
    rw [hdue', ← hdue]
    exact h.begun
  case closed => exact fun hclosed => absurd hclosed hopen

/-- The head of the loop of `drain()`. -/
theorem Inv.draining (h : Inv slots t) {last : Bool} {budget : ℕ}
    (hphase : t.state.phase = .draining last budget) (lag : ℕ) :
    Inv slots (t.step (.writer lag)).1 := by
  have hwithin : t.state.phase.Within last := by rw [hphase]; rfl
  have hidle : t.state.ring.consumer = .idle := by
    have hcalls := h.calls
    rw [hphase] at hcalls
    exact hcalls
  cases budget with
  | zero =>
    have howed : (Phase.flushing last).owed = t.state.phase.owed := by rw [hphase]; rfl
    have hmoves := h.within hwithin howed rfl hidle le_rfl
    simpa [Account.step, step, writerStep, hphase, begins, budgetRead]
      using h.move hmoves h.queue rfl
  | succ budget =>
    have hring : Ring.step t.state.ring .tryPop =
        ({ t.state.ring with consumer := .loadedHead t.state.ring.head.now }, []) := by
      simp [Ring.step, hidle]
    have howed : (Phase.popping last budget).owed = t.state.phase.owed := by rw [hphase]; rfl
    have hmoves : Moves t (.popping last budget) (.loadedHead t.state.ring.head.now)
        t.state.ring.tailSeen t.begun := by
      refine h.within hwithin howed rfl ?_ le_rfl
      trivial
    simpa [Account.step, step, writerStep, hphase, State.access, hring, begins, budgetRead]
      using h.call hmoves hring trivial

/-- What becomes of a popped record touches nothing else. -/
theorem take_frame (s : State cfg α) (slot : α) :
    ∃ lines lostLines, s.take slot = { s with lines := lines, lostLines := lostLines } ∧
      lines.length + lostLines = s.lines.length + s.lostLines + 1 ∧
      (lines = s.lines ∨ lines = s.lines ++ [slot]) := by
  unfold State.take
  split
  · exact ⟨s.lines, s.lostLines + 1, rfl, rfl, .inl rfl⟩
  · refine ⟨s.lines ++ [slot], s.lostLines, rfl, ?_, .inr rfl⟩
    rw [List.length_append, List.length_singleton]
    omega

/-- Taking a record leaves the stop alone. -/
@[simp]
theorem stop_take (s : State cfg α) (slot : α) : (s.take slot).stop = s.stop := by
  unfold State.take
  split <;> rfl

/-- A record is popped. -/
theorem Inv.popped (h : Inv slots t) {last : Bool} {budget : ℕ}
    (hphase : t.state.phase = .popping last budget) {slot : α} {ring : Ring.State cfg α}
    {log : Log α} (hring : ring = { t.state.ring with
      head := t.state.ring.head.store (t.state.ring.head.now + 1), consumer := .idle })
    (hqueue : QueueInv slots ring log) (hpops : poppedIn log = poppedIn t.log ++ [slot]) :
    Inv slots { t with
      state :=
        { ({ t.state with ring := ring } : State cfg α).take slot with
          phase := .draining last budget }
      log := log } := by
  subst hring
  have hwithin : t.state.phase.Within last := by rw [hphase]; rfl
  obtain ⟨hlast, hcut, -, hdue, hopen⟩ := hwithin.spec
  -- what the writer makes of the slot: a line, or a line lost to a full disk
  obtain ⟨lines, lostLines, htake, hcount, hline⟩ := take_frame
    ({ t.state with ring := { t.state.ring with
      head := t.state.ring.head.store (t.state.ring.head.now + 1), consumer := .idle } }) slot
  rw [htake]
  have hcutoff := h.cutoff
  rw [hphase] at hcutoff
  have horder := h.order
  constructor
  case queue => exact hqueue
  case calls => rfl
  -- the pop moves `head`, and one record less is owed
  case cutoff =>
    simp only [Phase.owed, Register.now_store] at hcutoff ⊢
    omega
  case seen => exact h.seen
  case taken =>
    dsimp only at hcount ⊢
    rw [hcount, hpops, h.taken, List.length_append, List.length_singleton]
  case order =>
    dsimp only at hline ⊢
    rw [hpops]
    obtain rfl | rfl := hline
    · exact horder.trans (List.sublist_append_left _ _)
    · exact horder.append (.refl _)
  case joined => exact h.joined
  case request => exact h.request
  case last => exact fun hl => h.last (hlast.mpr hl)
  case cut => exact fun hc => h.cut (hcut.mpr hc)
  case held => rintro ⟨⟩
  case unasked => exact h.unasked
  case begun =>
    have hbegun := h.begun
    rw [hdue] at hbegun
    cases last <;> exact hbegun
  case closed => exact fun m hm => absurd (h.closed m hm).1 hopen

/-- Inside `try_pop`, which cannot come back empty: the budget is of records seen. -/
theorem Inv.popping (h : Inv slots t) {last : Bool} {budget : ℕ}
    (hphase : t.state.phase = .popping last budget) (lag : ℕ) :
    Inv slots (t.step (.writer lag)).1 := by
  have hwithin : t.state.phase.Within last := by rw [hphase]; rfl
  have hcalls := h.calls
  have hcutoff := h.cutoff
  have hseen := h.seen
  rw [hphase] at hcalls hcutoff
  have hsome : t.state.ring.head.now < t.state.ring.tailSeen := by
    simp only [Phase.owed] at hcutoff
    omega
  have hqueue := h.queue.step (consumer_onQueue lag)
  obtain ⟨tailSeen, consumer, hring, hview, hpop⟩ | ⟨slot, hring⟩ :=
    h.queue.step_popping hcalls hsome lag
  · rw [hring] at hqueue
    have howed : (Phase.popping last budget).owed = t.state.phase.owed := by rw [hphase]
    have hmoves : Moves t (.popping last budget) consumer tailSeen t.begun :=
      h.within hwithin howed rfl hpop hview
    simpa [Account.step, step, writerStep, hphase, State.access, hring, begins, budgetRead]
      using h.move hmoves hqueue (by simp)
  · rw [hring] at hqueue
    have hpops : poppedIn (t.log ++ [(.consumer lag, [.popped slot])]) =
        poppedIn t.log ++ [slot] := by
      simp [Event.popped?]
    have hnext := h.popped hphase rfl hqueue hpops
    simp only [hphase] at hnext
    simpa [Account.step, step, writerStep, hphase, State.access, hring, begins, budgetRead,
      stop_take] using hnext

/-- A move that makes no access and begins nothing. -/
theorem Inv.turn (h : Inv slots t) {phase : Phase}
    (hmoves : Moves t phase t.state.ring.consumer t.state.ring.tailSeen t.begun)
    (outputFailed : Bool) :
    Inv slots { t with state := { t.state with phase := phase, outputFailed := outputFailed } } :=
  h.move hmoves h.queue rfl

/-- The end of `drain()`. -/
theorem Inv.flushing (h : Inv slots t) {last : Bool} (hphase : t.state.phase = .flushing last)
    (lag : ℕ) : Inv slots (t.step (.writer lag)).1 := by
  have hcalls := h.calls
  have hlast := h.last
  have hbegun := h.begun
  rw [hphase] at hcalls hlast hbegun
  have hmoves : Moves t (if last then .marking else .locking) t.state.ring.consumer
      t.state.ring.tailSeen t.begun := by
    constructor
    case calls => cases last <;> exact hcalls
    case seen => exact le_rfl
    case owed => rw [hphase]; cases last <;> rfl
    case last =>
      cases last with
      | false => exact False.elim
      | true => exact fun _ => hlast rfl
    case cut =>
      rw [hphase]
      cases last with
      | false => exact False.elim
      | true => exact fun _ => rfl
    case held => cases last <;> rintro ⟨⟩
    case unasked => exact h.unasked
    case begun => cases last <;> exact hbegun
    case closed => rw [hphase]; exact False.elim
  simpa [Account.step, step, writerStep, hphase, State.latch, begins, budgetRead]
    using h.turn hmoves (t.state.outputFailed || t.state.streamFailed)

/-- The look at `stop_`, and at the ring if it is not set. -/
theorem Inv.locking (h : Inv slots t) (hphase : t.state.phase = .locking) (lag : ℕ) :
    Inv slots (t.step (.writer lag)).1 := by
  have hcalls := h.calls
  have hbegun := h.begun
  rw [hphase] at hcalls hbegun
  cases hstop : t.state.stop with
  | true =>
    simpa [Account.step, step, writerStep, hphase, hstop, State.leave, begins, budgetRead]
      using h.leave (.inl hphase) hstop
  | false =>
    have hring : Ring.step t.state.ring .consumerPending =
        ({ t.state.ring with consumer := .pending t.state.ring.head.now }, []) := by
      simp [Ring.step, show t.state.ring.consumer = .idle from hcalls]
    have hmoves : Moves t .peeking (.pending t.state.ring.head.now) t.state.ring.tailSeen
        t.begun := by
      constructor
      case calls => trivial
      case seen => exact le_rfl
      case owed => rw [hphase]; rfl
      case last => exact False.elim
      case cut => exact False.elim
      case held => exact fun _ => hstop
      case unasked => exact h.unasked
      case begun => rw [h.unasked hstop]; exact le_rfl
      case closed => rw [hphase]; exact False.elim
    simpa [Account.step, step, writerStep, hphase, hstop, State.access, hring, begins, budgetRead]
      using h.call hmoves hring trivial

/-- The return of `pending()` with the mutex held: the next batch, or the wait. -/
theorem Inv.peeking (h : Inv slots t) (hphase : t.state.phase = .peeking) (lag : ℕ) :
    Inv slots (t.step (.writer lag)).1 := by
  have hcalls := h.calls
  rw [hphase] at hcalls
  have hstop := h.held hphase
  obtain ⟨count, hring, -⟩ := h.queue.step_pending hcalls lag
  have hqueue := h.queue.step (consumer_onQueue lag)
  rw [hring] at hqueue
  have hmoves : Moves t (if 0 < count then .drain false else .waiting) .idle
      (t.state.ring.tail.view t.state.ring.tailSeen lag) t.begun := by
    constructor
    case calls => split <;> rfl
    case seen => exact t.state.ring.tail.le_view _ _
    case owed => rw [hphase]; split <;> rfl
    case last => split <;> rintro ⟨⟩
    case cut => split <;> exact False.elim
    case held => split <;> rintro ⟨⟩
    case unasked => exact h.unasked
    case begun =>
      rw [h.unasked hstop]
      split <;> simp [Phase.due]
    case closed => rw [hphase]; exact False.elim
  simpa [Account.step, step, writerStep, hphase, State.access, hring, begins, budgetRead]
    using h.move hmoves hqueue (by simp [List.filterMap_cons, Event.popped?])

/-- A wake-up before the timeout. -/
theorem Inv.waiting (h : Inv slots t) (hphase : t.state.phase = .waiting) (lag : ℕ) :
    Inv slots (t.step (.writer lag)).1 := by
  cases hstop : t.state.stop with
  | true =>
    simpa [Account.step, step, writerStep, hphase, hstop, State.leave, begins, budgetRead]
      using h.leave (.inr hphase) hstop
  | false => simpa [Account.step, step, writerStep, hphase, hstop, begins, budgetRead] using h

/-- `emit_close_line()` is called. -/
theorem Inv.marking (h : Inv slots t) (hphase : t.state.phase = .marking) (lag : ℕ) :
    Inv slots (t.step (.writer lag)).1 := by
  have hcalls := h.calls
  have hlast := h.last
  have hbegun := h.begun
  rw [hphase] at hcalls hlast hbegun
  have hring : Ring.step t.state.ring .consumerPending =
      ({ t.state.ring with consumer := .pending t.state.ring.head.now }, []) := by
    simp [Ring.step, show t.state.ring.consumer = .idle from hcalls]
  have hmoves : Moves t .closing (.pending t.state.ring.head.now) t.state.ring.tailSeen
      t.begun := by
    constructor
    case calls => trivial
    case seen => exact le_rfl
    case owed => rw [hphase]; rfl
    case last => exact hlast
    case cut => rw [hphase]; exact id
    case held => rintro ⟨⟩
    case unasked => exact h.unasked
    case begun => exact hbegun
    case closed => rw [hphase]; exact False.elim
  simpa [Account.step, step, writerStep, hphase, State.access, hring, begins, budgetRead]
    using h.call hmoves hring trivial

/-- The marker is written. -/
theorem Inv.closing (h : Inv slots t) (hphase : t.state.phase = .closing) (lag : ℕ) :
    Inv slots (t.step (.writer lag)).1 := by
  have hcalls := h.calls
  have hlast := h.last
  have hcut := h.cut
  have hbegun := h.begun
  have hcutoff := h.cutoff
  rw [hphase] at hcalls hlast hcut hbegun hcutoff
  obtain ⟨count, hring, hcount⟩ := h.queue.step_pending hcalls lag
  have hqueue := h.queue.step (consumer_onQueue lag)
  rw [hring] at hqueue
  have hview := t.state.ring.tail.le_view t.state.ring.tailSeen lag
  have hle := h.queue.inv.tail_counter.view_le h.queue.inv.tailSeen_le lag
  have hhead := h.queue.head_le_seen
  simp only [Account.step, step, writerStep, hphase, State.access, hring, begins, budgetRead,
    Bool.and_false, Bool.false_eq_true, if_false, Option.isSome_none, Option.getD_none,
    Bool.not_and_self]
  constructor
  case queue => exact hqueue
  case calls => rfl
  case cutoff => exact hcutoff
  case seen => exact h.seen.trans hview
  case taken => simpa [List.filterMap_cons, Event.popped?] using h.taken
  case order => simpa [List.filterMap_cons, Event.popped?] using h.order
  case joined => exact h.joined
  case request => exact h.request
  case last => exact fun hl => ⟨(hlast hl).1, (hlast hl).2.trans hview⟩
  case cut => exact hcut
  case held => rintro ⟨⟩
  case unasked => exact h.unasked
  case begun => exact hbegun
  case closed =>
    intro m hm
    refine ⟨trivial, ?_⟩
    obtain rfl := Option.some.inj hm
    simp only [Phase.owed] at hcutoff
    dsimp only
    omega

/-- The last look at the stream. -/
theorem Inv.ending (h : Inv slots t) (hphase : t.state.phase = .ending) (lag : ℕ) :
    Inv slots (t.step (.writer lag)).1 := by
  have hcalls := h.calls
  have hlast := h.last
  have hbegun := h.begun
  rw [hphase] at hcalls hlast hbegun
  have hmoves : Moves t .ended t.state.ring.consumer t.state.ring.tailSeen t.begun := by
    constructor
    case calls => exact hcalls
    case seen => exact le_rfl
    case owed => rw [hphase]; rfl
    case last => exact hlast
    case cut => rw [hphase]; exact id
    case held => rintro ⟨⟩
    case unasked => exact h.unasked
    case begun => exact hbegun
    case closed => exact fun _ => trivial
  simpa [Account.step, step, writerStep, hphase, State.latch, begins, budgetRead]
    using h.turn hmoves (t.state.outputFailed || t.state.streamFailed)

/-- One access of the writer, by the places it can be at. -/
theorem Inv.writer (h : Inv slots t) (lag : ℕ) : Inv slots (t.step (.writer lag)).1 := by
  cases hphase : t.state.phase with
  | drain last => exact h.drain hphase lag
  | budgeting last => exact h.budgeting hphase lag
  | draining last budget => exact h.draining hphase lag
  | popping last budget => exact h.popping hphase lag
  | flushing last => exact h.flushing hphase lag
  | locking => exact h.locking hphase lag
  | peeking => exact h.peeking hphase lag
  | waiting => exact h.waiting hphase lag
  | marking => exact h.marking hphase lag
  | closing => exact h.closing hphase lag
  | ending => exact h.ending hphase lag
  | ended => simpa [Account.step, step, writerStep, hphase, begins, budgetRead] using h

/-- The poll interval of `wait_for` is over. -/
theorem Inv.timeout (h : Inv slots t) : Inv slots (t.step .timeout).1 := by
  cases hphase : t.state.phase with
  | waiting =>
    have hcalls := h.calls
    rw [hphase] at hcalls
    cases hstop : t.state.stop with
    | true =>
      simpa [Account.step, step, hphase, hstop, State.leave, begins, budgetRead]
        using h.leave (.inr hphase) hstop
    | false =>
      have hmoves : Moves t (.drain false) t.state.ring.consumer t.state.ring.tailSeen t.begun := by
        constructor
        case calls => exact hcalls
        case seen => exact le_rfl
        case owed => rw [hphase]; rfl
        case last => rintro ⟨⟩
        case cut => exact False.elim
        case held => rintro ⟨⟩
        case unasked => exact h.unasked
        case begun => rw [h.unasked hstop]; exact le_rfl
        case closed => rw [hphase]; exact False.elim
      simpa [Account.step, step, hphase, hstop, begins, budgetRead]
        using h.turn hmoves t.state.outputFailed
  | _ => simpa [Account.step, step, hphase, begins, budgetRead] using h

/-- The budget is read where the phase moves on. -/
theorem budgetRead_eq_none {s : State cfg α} {act : Act α}
    (hphase : (step s act).1.phase = s.phase) : budgetRead s act = none := by
  simp only [budgetRead, hphase]
  cases s.phase <;> rfl

/-- A cut-off belongs to the last drain. -/
theorem Phase.IsCut.isLast {phase : Phase} (h : phase.IsCut) : phase.IsLast := by
  cases phase <;> first | exact h | exact h.elim

/-- The request: all that was accepted so far is what it asks to be drained. -/
theorem Inv.stopAndJoin (h : Inv slots t) : Inv slots (t.step .stopAndJoin).1 := by
  by_cases hskip : t.state.phase = .peeking ∨ t.state.joined
  · -- the mutex is not free, or the request was made before
    have hsame : TelemetryWriter.stopAndJoin t.state = t.state := if_pos hskip
    have hread : budgetRead t.state .stopAndJoin = none :=
      budgetRead_eq_none (congrArg State.phase hsame)
    simpa [Account.step, step, hsame, begins, hread] using h
  · obtain ⟨hfree, hjoined⟩ := not_or.mp hskip
    rw [Bool.not_eq_true, h.joined] at hjoined
    have hset : TelemetryWriter.stopAndJoin t.state = { t.state with
        joined := true, stop := true, stopSeen := t.state.ring.tail.past.length } := if_neg hskip
    have hread : budgetRead t.state .stopAndJoin = none :=
      budgetRead_eq_none (by simp only [step, hset])
    have hpast : t.state.ring.tail.past.length = t.state.ring.tail.now := by
      rw [h.queue.inv.tail_counter, List.length_range]
    have hloop : ¬ t.state.phase.IsLast := by
      intro hl
      have htold := (h.last hl).1
      rw [hjoined] at htold
      exact Bool.false_ne_true htold
    simp only [Account.step, step, hset, begins, hread, hjoined, Bool.not_false, Bool.and_true,
      Bool.false_and, Bool.false_eq_true, if_true, if_false, Option.isSome_none, Option.getD_none,
      List.append_nil]
    exact
      { h with
        joined := rfl
        request := fun _ => ⟨h.queue.inv.length.trans hpast.symm, hpast.le⟩
        last := fun hl => absurd hl hloop
        cut := fun hc => absurd hc.isLast hloop
        held := fun hheld => absurd hheld hfree
        unasked := fun hstop => by contradiction }

/-- An access of the producer is no act of the writer. -/
theorem Inv.producer (h : Inv slots t) {act : Act α} {access : Ring.Act α}
    (hact : TelemetryWriter.step t.state act = t.state.access access fun s _ => s)
    (hbegins : begins t.state act = false) (hqueue : access.OnQueue)
    (hframe : (Ring.step t.state.ring access).1.head = t.state.ring.head ∧
      (Ring.step t.state.ring access).1.consumer = t.state.ring.consumer ∧
      (Ring.step t.state.ring access).1.tailSeen = t.state.ring.tailSeen ∧
      (Ring.step t.state.ring access).2.filterMap Event.popped? = []) :
    Inv slots (t.step act).1 := by
  have hread : budgetRead t.state act = none := by
    apply budgetRead_eq_none
    rw [hact, State.access]
  simpa [Account.step, hact, State.access, hbegins, hread] using h.ofProducer hqueue hframe

/-- Every step keeps the invariant. -/
theorem Inv.step (h : Inv slots t) (act : Act α) : Inv slots (t.step act).1 := by
  cases act with
  | push slot =>
    have hact : TelemetryWriter.step t.state (.push slot) =
        t.state.access (.push (.tryPush true) slot) fun s _ => s := rfl
    refine h.producer hact rfl (by rintro ⟨⟩) ?_
    simp only [Ring.step]
    split <;> exact ⟨rfl, rfl, rfl, rfl⟩
  | producerPending lag =>
    have hact : TelemetryWriter.step t.state (.producerPending lag) =
        t.state.access (.producerPending lag) fun s _ => s := rfl
    refine h.producer hact rfl trivial ?_
    simp only [Ring.step]
    split <;> exact ⟨rfl, rfl, rfl, rfl⟩
  | producer lag => exact h.producer rfl rfl trivial (producerStep_frame h.queue lag)
  | writer lag => exact h.writer lag
  | timeout => exact h.timeout
  | stopAndJoin => exact h.stopAndJoin
  | streamFails =>
    have hread : budgetRead t.state .streamFails = none := budgetRead_eq_none rfl
    simpa [Account.step, TelemetryWriter.step, begins, hread] using { h with }

/-- So it holds along every run. -/
theorem inv_run (slots : Fin cfg.capacity.size.toNat → α) (failed : Bool) (acts : List (Act α)) :
    Inv slots (run cfg slots failed acts) :=
  Mealy.run_induct Account.step (P := fun t _ => Inv slots t) (inv_init slots failed)
    (fun _ _ act h => h.step act) acts

/-- Records are taken in the order they were pushed. -/
theorem Inv.fifo (h : Inv slots t) : poppedIn t.log <+: accepted t.log := h.queue.isFifo.fifo

/-- What is popped is what the ring was given, up to the number popped. -/
theorem Inv.popped_eq (h : Inv slots t) :
    poppedIn t.log = (accepted t.log).take t.state.ring.head.now := by
  rw [h.queue.head_eq]
  exact List.prefix_iff_eq_take.mp h.fifo

/-- After the last drain nothing is owed. -/
theorem Phase.IsDrained.spec {phase : Phase} (h : phase.IsDrained) :
    phase.owed = 0 ∧ phase.IsCut := by
  cases phase <;> first | exact ⟨rfl, trivial⟩ | exact h.elim

/-- A closed writer has drained. -/
theorem Phase.IsClosed.isDrained {phase : Phase} (h : phase.IsClosed) : phase.IsDrained := by
  cases phase <;> trivial

/-- After the final drain everything before the cutoff is popped, and the request was before it. -/
theorem Inv.atCutoff (h : Inv slots t) (hdrained : t.state.phase.IsDrained) :
    t.state.ring.head.now = t.entered + t.pending ∧ t.requested ≤ t.entered + t.pending := by
  obtain ⟨howed, hcut⟩ := hdrained.spec
  have hcutoff := h.cutoff
  rw [howed, Nat.add_zero] at hcutoff
  refine ⟨hcutoff, ?_⟩
  rw [(h.request (h.last hcut.isLast).1).1]
  exact h.cut hcut

/-- So what was accepted is taken or left. -/
theorem Inv.conserves (h : Inv slots t) : Conserves t where
  fifo := h.fifo
  taken := h.taken
  order := h.order
  bounded := by
    rw [← h.queue.head_eq, ← h.cutoff]
    exact Nat.le_add_right _ _
  begun := le_trans (Nat.le_add_right _ _) h.begun
  drained := by
    intro hdrained
    obtain ⟨hcutoff, hrequested⟩ := h.atCutoff hdrained
    exact ⟨hcutoff ▸ h.popped_eq, hrequested⟩
  closed := by
    intro m hm
    obtain ⟨hclosed, hle⟩ := h.closed m hm
    obtain ⟨hcutoff, hrequested⟩ := h.atCutoff hclosed.isDrained
    have hlength := h.queue.inv.length
    rw [h.taken, ← h.queue.head_eq, hlength]
    refine ⟨by omega, fun hquiet => ?_⟩
    -- all that was accepted was accepted before the cutoff
    have hleft : m.pendingLeft.toNat = 0 := by omega
    refine ⟨UInt64.toNat_inj.mp hleft, ?_⟩
    rw [h.popped_eq]
    apply List.take_of_length_le
    omega

/-- Taking a record leaves the closing line alone. -/
@[simp]
theorem closeLine_take (s : State cfg α) (slot : α) : (s.take slot).closeLine = s.closeLine := by
  unfold State.take
  split <;> rfl

/-- Only `emit_close_line()` writes the marker. -/
theorem writerStep_closeLine (s : State cfg α) (lag : ℕ) (hphase : s.phase ≠ .closing) :
    (writerStep s lag).1.closeLine = s.closeLine := by
  unfold writerStep
  split
  case h_2 | h_5 | h_8 =>
    simp only [State.access]
    split <;> simp
  case h_7 | h_9 => split <;> rfl
  case h_11 hclosing => exact absurd hclosing hphase
  all_goals rfl

/-- What is left is what is between `head` and `tail`. -/
theorem Inv.left_eq (h : Inv slots t) :
    t.left = t.state.ring.tail.now - t.state.ring.head.now := by
  rw [Account.left, h.queue.inv.length, h.queue.head_eq]

/-- What a reading of `pending()` returns is what is left, unless the load is stale. -/
theorem Inv.count_le (h : Inv slots t) (lag : ℕ) {count : ℕ}
    (hcount : count = t.state.ring.tail.view t.state.ring.tailSeen lag - t.state.ring.head.now) :
    count ≤ t.left ∧ (lag = 0 → count = t.left) := by
  have hcounter := h.queue.inv.tail_counter
  have hle := hcounter.view_le h.queue.inv.tailSeen_le lag
  rw [h.left_eq, hcount]
  refine ⟨Nat.sub_le_sub_right hle _, fun hlag => ?_⟩
  have hpast : t.state.ring.tail.past.length = t.state.ring.tail.now := by
    rw [hcounter, List.length_range]
  have hview : t.state.ring.tail.view t.state.ring.tailSeen lag = t.state.ring.tail.now := by
    rw [hlag, Register.view, Nat.sub_zero, hpast]
    exact max_eq_right h.queue.inv.tailSeen_le
  rw [hview]

/-- The closing line reads it, as far as it is seen. -/
theorem Inv.readsLeft (h : Inv slots t) (lag : ℕ) : ReadsLeft t lag where
  budget := by
    intro budget hread
    have hcalls := h.calls
    cases hphase : t.state.phase with
    | budgeting last =>
      rw [hphase] at hcalls
      obtain ⟨count, hring, hcount⟩ := h.queue.step_pending hcalls lag
      simp only [budgetRead, TelemetryWriter.step, writerStep, hphase, State.access, hring,
        Option.some.injEq] at hread
      exact h.count_le lag (hread.symm.trans hcount)
    | _ => simp [budgetRead, hphase] at hread
  closeLine := by
    intro m hopen hm
    have hcalls := h.calls
    cases hphase : t.state.phase with
    | closing =>
      rw [hphase] at hcalls
      obtain ⟨count, hring, hcount⟩ := h.queue.step_pending hcalls lag
      simp only [TelemetryWriter.step, writerStep, hphase, State.access, hring,
        Option.some.injEq] at hm
      subst hm
      obtain ⟨hle, hexact⟩ := h.count_le lag hcount
      refine ⟨hle, fun hlag => ?_⟩
      have hbounds := h.queue.inv.head_le
      have hpops := h.queue.head_eq
      have hlength := h.queue.inv.length
      rw [h.taken, hexact hlag, h.left_eq]
      omega
    | _ =>
      have hsame := writerStep_closeLine t.state lag (by rw [hphase]; rintro ⟨⟩)
      rw [TelemetryWriter.step, hsame, hopen] at hm
      exact by contradiction

end Step

/-! ## The account of every run -/

/-- However the pushes, the accesses of the writer, the timeouts, the request to stop and the
failure of the stream interleave, and however stale the loads are, the writer loses, repeats and
reorders nothing. -/
theorem run_conserves (cfg : Config) {α : Type*} (slots : Fin cfg.capacity.size.toNat → α)
    (failed : Bool) (acts : List (Act α)) :
    let t := run cfg slots failed acts
    Conserves t ∧ ∀ lag, ReadsLeft t lag :=
  have h := inv_run slots failed acts
  ⟨h.conserves, h.readsLeft⟩

/-- A ring that is full when the last two records are pushed refuses both: nothing is left at the
close marker, and neither record was drained. -/
theorem run_conserves_full :
    let cfg : Config := { kind := .spscTelemetryRing, capacity := { size := 2, isPow := ⟨1, rfl⟩ } }
    let pushes : ℕ → List (Act ℕ) := fun slot =>
      [.push slot, .producer 0, .producer 0, .producer 0]
    let t := run cfg (fun _ => 0) false
      (pushes 1 ++ pushes 2 ++ pushes 8 ++ pushes 9 ++
        .stopAndJoin :: List.replicate 30 (.writer 0))
    t.state.phase = .ended ∧
      t.state.closeLine = some { pendingLeft := 0, dropped := 2, streamOk := true } ∧
      8 ∉ poppedIn t.log ∧ 9 ∉ poppedIn t.log := by
  decide

end TelemetryWriter

end MarketMaker
