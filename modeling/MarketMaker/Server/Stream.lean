import MarketMaker.Server.Invariant

/-!
# What a session sends, and in which order

Three invariants of a line, for a codec that never fails to encode:

* `Line.Streams`: the reports written are the first ones that were queued, each in the frame that
  carries it; the rest is in the outbox, and `pending_svc_` holds the service times of its acks;
* `Line.Ticking`: the ticks written are increasing, and a book's fills are written before its tick;
* `Line.Closes`: after a close was latched no tick is written, after its frame nothing is, and a
  close that drains sends its frame only when every queued report was written.
-/

namespace MarketMaker

/-! ## Frames -/

/-- The reports among the frames handed to `async_write`. -/
def reportsIn (log : List Entry) : List OutMsg := (framesIn log).filter fun frame => !frame.isTob

/-- The `md_seq`s of the ticks among them. -/
def tobsIn (log : List Entry) : List ℕ :=
  (framesIn log).filterMap fun
    | .tob tob => some tob.mdSeq
    | _ => none

/-- The frame that carries a queued report: the envelope is stamped, and an ack carries the service
time of the command it answers. -/
def frameOf (seq epoch : ℕ) (p : OutMsg × Cause) : OutMsg :=
  match p.1.stamp seq epoch, View.svcOf p with
  | .orderAck ack, some svc => .orderAck { ack with svcNs := svc }
  | stamped, _ => stamped

/-- The frame carries the queued report, for the session of `epoch`. -/
def Carries (epoch : ℕ) (p : OutMsg × Cause) (frame : OutMsg) : Prop :=
  frame = frameOf frame.seq epoch p

theorem reportsIn_append (l l' : List Entry) :
    reportsIn (l ++ l') = reportsIn l ++ reportsIn l' := by
  simp [reportsIn, framesIn_append]

theorem tobsIn_append (l l' : List Entry) : tobsIn (l ++ l') = tobsIn l ++ tobsIn l' := by
  simp [tobsIn, framesIn_append]

@[simp]
theorem seq_frameOf (seq epoch : ℕ) (p : OutMsg × Cause) : (frameOf seq epoch p).seq = seq := by
  obtain ⟨msg, cause⟩ := p
  cases msg <;> cases cause <;> rfl

@[simp]
theorem epoch_frameOf (seq epoch : ℕ) (p : OutMsg × Cause) :
    (frameOf seq epoch p).epoch = epoch := by
  obtain ⟨msg, cause⟩ := p
  cases msg <;> cases cause <;> rfl

@[simp]
theorem isTob_frameOf (seq epoch : ℕ) (p : OutMsg × Cause) :
    (frameOf seq epoch p).isTob = p.1.isTob := by
  obtain ⟨msg, cause⟩ := p
  cases msg <;> cases cause <;> rfl

theorem carries_frameOf (seq epoch : ℕ) (p : OutMsg × Cause) :
    Carries epoch p (frameOf seq epoch p) := by
  rw [Carries, seq_frameOf]

/-- The write path stamps a queued report as `frameOf` says, and uses up its service time. -/
theorem stampMsg_queued (seq epoch : ℕ) {p : OutMsg × Cause} (rest : List ℤ)
    (answers : Answers p.1 p.2) :
    Session.stampMsg seq epoch ((View.svcOf p).toList ++ rest) p.1 =
      (frameOf seq epoch p, rest) := by
  obtain ⟨msg, cause⟩ := p
  cases msg with
  | orderAck ack =>
    obtain ⟨order, svc, hsvc, -⟩ := answers ack rfl
    simp only at hsvc
    rw [hsvc]
    rfl
  | tob m => rfl
  | cancelAck m => rfl
  | reject m => rfl
  | fill m => rfl

/-- Where an entry of an extended log stands. -/
private theorem split_concat {α : Type} {l pre post : List α} {a x : α}
    (h : l ++ [x] = pre ++ a :: post) :
    (l = pre ∧ x = a) ∨ ∃ post', post = post' ++ [x] ∧ l = pre ++ a :: post' := by
  induction l generalizing pre with
  | nil =>
    cases pre with
    | nil =>
      cases h
      exact Or.inl ⟨rfl, rfl⟩
    | cons b pre => simp at h
  | cons b l ih =>
    cases pre with
    | nil =>
      cases h
      exact Or.inr ⟨l, rfl, rfl⟩
    | cons c pre =>
      obtain ⟨hbc, htail⟩ := List.cons.inj h
      subst hbc
      refine (ih htail).imp ?_ ?_
      · rintro ⟨rfl, hx⟩
        exact ⟨rfl, hx⟩
      · rintro ⟨post', hpost, rfl⟩
        exact ⟨post', hpost, rfl⟩

/-! ## Reports -/

/-- The queued reports are the written ones, `done`, and then those still `queued`. -/
structure Line.Streams (l : Line) (done queued : List (OutMsg × Cause)) : Prop where
  enqueued : enqueuedIn l.log = done ++ queued
  reports : queued.map Prod.fst = l.outbox.reports
  carried : List.Forall₂ (Carries l.epoch) done (reportsIn l.log)
  pending : l.pendingSvc = queued.filterMap View.svcOf
  answers : ∀ p ∈ done ++ queued, Answers p.1 p.2
  isReport : ∀ p ∈ queued, p.1.isTob = false
  numbered : (framesIn l.log).map OutMsg.seq = List.range' 1 (framesIn l.log).length
  outSeq : l.outSeq = (framesIn l.log).length + 1
  epochs : ∀ frame ∈ framesIn l.log, frame.epoch = l.epoch

namespace Line.Streams

variable {cfg : ServerConfig} {codec : Codec} {l l' : Line} {done queued : List (OutMsg × Cause)}
  {v v' : View}

theorem fresh (cfg : ServerConfig) (epoch : ℕ) :
    ({ Line.fresh cfg with epoch } : Line).Streams [] [] where
  enqueued := rfl
  reports := rfl
  carried := List.Forall₂.nil
  pending := rfl
  answers p hp := by cases hp
  isReport p hp := by cases hp
  numbered := rfl
  outSeq := rfl
  epochs frame hframe := by cases hframe

/-- The invariant reads the queue, the stamps, and of the log the reports and the frames only. -/
theorem congr (h : l.Streams done queued) (hepoch : l'.epoch = l.epoch)
    (hreports : l'.outbox.reports = l.outbox.reports) (hsvc : l'.pendingSvc = l.pendingSvc)
    (hseq : l'.outSeq = l.outSeq) (henqueued : enqueuedIn l'.log = enqueuedIn l.log)
    (hframes : framesIn l'.log = framesIn l.log) : l'.Streams done queued where
  enqueued := henqueued.trans h.enqueued
  reports := h.reports.trans hreports.symm
  carried := by
    rw [hepoch, reportsIn, hframes]
    exact h.carried
  pending := hsvc.trans h.pending
  answers := h.answers
  isReport := h.isReport
  numbered := by
    rw [hframes]
    exact h.numbered
  outSeq := by
    rw [hframes, hseq]
    exact h.outSeq
  epochs := by
    rw [hframes, hepoch]
    exact h.epochs

/-- A frame with the next number keeps the numbering. -/
private theorem numbered_concat {frames : List OutMsg} {frame : OutMsg}
    (h : frames.map OutMsg.seq = List.range' 1 frames.length)
    (hseq : frame.seq = frames.length + 1) :
    (frames ++ [frame]).map OutMsg.seq = List.range' 1 (frames ++ [frame]).length := by
  rw [List.map_append, h, List.length_append, List.length_singleton, List.range'_1_concat,
    List.map_singleton, hseq, Nat.add_comm]

/-- The oldest report is written. -/
theorem writeReport {msg : OutMsg} {cause : Cause}
    (h : v.line.Streams done ((msg, cause) :: queued)) :
    Session.stampMsg v.line.outSeq v.line.epoch v.line.pendingSvc msg =
        (frameOf v.line.outSeq v.line.epoch (msg, cause), queued.filterMap View.svcOf) ∧
      ((v.stamp msg { v.line.outbox with reports := queued.map Prod.fst }).write
        (frameOf v.line.outSeq v.line.epoch (msg, cause))).line.Streams
          (done ++ [(msg, cause)]) queued := by
  have hsvc : v.line.pendingSvc =
      (View.svcOf (msg, cause)).toList ++ queued.filterMap View.svcOf := by
    rw [h.pending, List.filterMap_cons]
    cases View.svcOf (msg, cause) <;> rfl
  have hstamp := stampMsg_queued v.line.outSeq v.line.epoch (queued.filterMap View.svcOf)
    (h.answers (msg, cause) (List.mem_append_right _ List.mem_cons_self))
  rw [← hsvc] at hstamp
  have hframes : framesIn (v.line.log ++
      [.wrote (frameOf v.line.outSeq v.line.epoch (msg, cause))]) =
        framesIn v.line.log ++ [frameOf v.line.outSeq v.line.epoch (msg, cause)] :=
    framesIn_append _ _
  have hnotTob : (frameOf v.line.outSeq v.line.epoch (msg, cause)).isTob = false := by
    rw [isTob_frameOf]
    exact h.isReport (msg, cause) List.mem_cons_self
  refine ⟨hstamp, ?_, rfl, ?_, ?_, fun p hp => h.answers p (by simpa using hp),
    fun p hp => h.isReport p (List.mem_cons_of_mem _ hp), ?_, ?_, ?_⟩
  · simp only [View.write, View.stamp, enqueuedIn_append, h.enqueued]
    simp [enqueuedIn]
  · simp only [View.write, View.stamp, reportsIn, hframes, List.filter_append]
    refine List.rel_append h.carried ?_
    rw [List.filter_singleton, hnotTob]
    exact List.Forall₂.cons (carries_frameOf _ _ _) List.Forall₂.nil
  · simp only [View.write, View.stamp, hstamp]
  · simp only [View.write, View.stamp, hframes]
    exact numbered_concat h.numbered (by rw [seq_frameOf, h.outSeq])
  · simp only [View.write, View.stamp]
    rw [hframes, List.length_append, List.length_singleton, h.outSeq]
  · simp only [View.write, View.stamp, hframes]
    intro frame hframe
    rcases List.mem_append.mp hframe with hold | hnew
    · exact h.epochs frame hold
    · rw [List.mem_singleton.mp hnew, epoch_frameOf]

/-- A tick is written. -/
theorem writeTick (h : v.line.Streams done queued) (tob : Tob) :
    ((v.stamp (.tob tob) { v.line.outbox with tob := none }).write
      (.tob { tob with seq := v.line.outSeq, epoch := v.line.epoch })).line.Streams
        done queued := by
  have hframes : framesIn (v.line.log ++
      [.wrote (.tob { tob with seq := v.line.outSeq, epoch := v.line.epoch })]) =
        framesIn v.line.log ++ [.tob { tob with seq := v.line.outSeq, epoch := v.line.epoch }] :=
    framesIn_append _ _
  refine ⟨?_, h.reports, ?_, h.pending, h.answers, h.isReport, ?_, ?_, ?_⟩
  · simp only [View.write, View.stamp, enqueuedIn_append, h.enqueued]
    simp [enqueuedIn]
  · simp only [View.write, View.stamp, reportsIn, hframes, List.filter_append]
    rw [show ∀ m : Tob, [OutMsg.tob m].filter (fun frame => !frame.isTob) = [] from fun _ => rfl,
      List.append_nil]
    exact h.carried
  · simp only [View.write, View.stamp, hframes]
    exact numbered_concat h.numbered h.outSeq
  · simp only [View.write, View.stamp]
    rw [hframes, List.length_append, List.length_singleton, h.outSeq]
  · simp only [View.write, View.stamp, hframes]
    intro frame hframe
    rcases List.mem_append.mp hframe with hold | hnew
    · exact h.epochs frame hold
    · rw [List.mem_singleton.mp hnew]
      rfl

/-- What a drained step leaves of the queue. -/
theorem drain (hd : Drain cfg codec v v') (htotal : codec.Total)
    (h : ∃ done queued, v.line.Streams done queued) : ∃ done queued,
    v'.line.Streams done queued := by
  obtain ⟨done, queued, h⟩ := h
  cases hd with
  | latch code _ _ =>
    refine ⟨done, queued, h.congr ?_ ?_ ?_ ?_ ?_ ?_⟩ <;> rw [View.line_latch]
    · simp [enqueuedIn]
    · simp [framesIn]
  | @write msg outbox hpop _ _ _ _ =>
    rcases Outbox.pop_cases hpop with ⟨rest, hreports, rfl⟩ | ⟨tob, -, -, rfl, rfl⟩
    · -- the oldest report is the first of the queue
      cases queued with
      | nil =>
        rw [← h.reports] at hreports
        cases hreports
      | cons p queued =>
        obtain ⟨m, cause⟩ := p
        have hreports := h.reports.trans hreports
        simp only [List.map_cons, List.cons.injEq] at hreports
        obtain ⟨rfl, rfl⟩ := hreports
        obtain ⟨hstamp, hnext⟩ := h.writeReport
        rw [hstamp]
        exact ⟨done ++ [(m, cause)], queued, hnext⟩
    · exact ⟨done, queued, h.writeTick tob⟩
  | lose _ hfailed => exact absurd hfailed (htotal _)
  | discard hpop _ =>
    refine ⟨done, queued, h.congr rfl ?_ rfl rfl ?_ ?_⟩
    · rcases Outbox.pop_cases hpop with ⟨rest, hreports, -⟩ | ⟨tob, -, -, -, rfl⟩
      · -- a tick is never among the reports
        rw [← h.reports] at hreports
        obtain ⟨p, queued, rfl, hp, -⟩ := List.map_eq_cons_iff.mp hreports
        have hnotTob := h.isReport p List.mem_cons_self
        rw [hp] at hnotTob
        cases hnotTob
      · rfl
    · simp [View.discard, enqueuedIn]
    · simp [View.discard, framesIn]
  | sendClose _ _ _ =>
    refine ⟨done, queued, h.congr rfl rfl rfl rfl ?_ ?_⟩
    · simp [View.sendClose, enqueuedIn]
    · simp [View.sendClose, framesIn]

/-- A queued report is the last of the queue. -/
theorem push {msg : OutMsg} {cause : Cause} (hmay : MayPush cfg codec v msg cause)
    (h : v.line.Streams done queued) :
    (v.push msg cause).line.Streams done (queued ++ [(msg, cause)]) := by
  have hout := Outbox.pushReport_of_not_isTob (o := v.line.outbox) hmay.isReport
  have hframes : framesIn (v.push msg cause).line.log = framesIn v.line.log := by
    simp [View.push, framesIn]
  refine ⟨?_, ?_, ?_, ?_, ?_, ?_, ?_, ?_, ?_⟩
  · simp only [View.push, enqueuedIn_append, h.enqueued, List.append_assoc]
    rfl
  · simp only [View.push, hout, List.map_append, h.reports, List.map_cons, List.map_nil]
  · rw [reportsIn, hframes]
    exact h.carried
  · simp only [View.push, h.pending, List.filterMap_append, List.filterMap_cons, List.filterMap_nil]
    cases View.svcOf (msg, cause) <;> rfl
  · intro p hp
    rw [← List.append_assoc] at hp
    rcases List.mem_append.mp hp with hold | hnew
    · exact h.answers p hold
    · rw [List.mem_singleton.mp hnew]
      exact hmay.answers
  · intro p hp
    rcases List.mem_append.mp hp with hold | hnew
    · exact h.isReport p hold
    · rw [List.mem_singleton.mp hnew]
      exact hmay.isReport
  · rw [hframes]
    exact h.numbered
  · rw [hframes]
    exact h.outSeq
  · rw [hframes]
    exact h.epochs

end Line.Streams

/-! ## Ticks -/

/-- The order of ticks, and of ticks and fills. -/
structure Line.Ticking (l : Line) : Prop where
  sorted : (tobsIn l.log).Pairwise (· < ·)
  known : ∀ k ∈ tobsIn l.log, k ∈ ticksIn l.log
  pending : ∀ tob, l.outbox.tob = some tob →
    tob.mdSeq ∈ ticksIn l.log ∧ ∀ k ∈ tobsIn l.log, k < tob.mdSeq
  /-- Whatever was queued before a tick is written was written before it. -/
  before : ∀ pre tob post, l.log = pre ++ .wrote (.tob tob) :: post →
    List.Forall₂ (Carries l.epoch) (enqueuedIn pre) (reportsIn pre)
  /-- What is queued after a tick was written comes from a later book. -/
  after : l.log.Pairwise fun a b => ∀ tob msg k q, a = .wrote (.tob tob) →
    b = .enqueued msg (.book k) q → tob.mdSeq < k

namespace Line.Ticking

variable {cfg : ServerConfig} {codec : Codec} {l l' : Line} {v v' : View}

theorem fresh (cfg : ServerConfig) (epoch : ℕ) :
    ({ Line.fresh cfg with epoch } : Line).Ticking where
  sorted := List.Pairwise.nil
  known k hk := by cases hk
  pending tob htob := by cases htob
  before pre tob post heq := by simp [Line.fresh] at heq
  after := List.Pairwise.nil

/-- A tick of the log was written. -/
private theorem mem_tobsIn {log : List Entry} {tob : Tob} (h : .wrote (.tob tob) ∈ log) :
    tob.mdSeq ∈ tobsIn log := by
  simp only [tobsIn, framesIn, List.mem_filterMap]
  exact ⟨.tob tob, ⟨_, h, rfl⟩, rfl⟩

/-- An entry that writes no tick keeps `before`. -/
private theorem before_concat {log : List Entry} {x : Entry} {epoch : ℕ}
    (h : ∀ pre tob post, log = pre ++ .wrote (.tob tob) :: post →
      List.Forall₂ (Carries epoch) (enqueuedIn pre) (reportsIn pre))
    (hx : ∀ tob, x = .wrote (.tob tob) →
      List.Forall₂ (Carries epoch) (enqueuedIn log) (reportsIn log)) (pre : List Entry) (tob : Tob)
    (post : List Entry) (heq : log ++ [x] = pre ++ .wrote (.tob tob) :: post) :
    List.Forall₂ (Carries epoch) (enqueuedIn pre) (reportsIn pre) := by
  rcases split_concat heq with ⟨rfl, hlast⟩ | ⟨post', -, hold⟩
  · exact hx tob hlast
  · exact h pre tob post' hold

/-- An entry that queues no fill keeps `after`. -/
private theorem after_concat {log : List Entry} {x : Entry}
    (h : log.Pairwise fun a b => ∀ tob msg k q, a = .wrote (.tob tob) →
      b = .enqueued msg (.book k) q → tob.mdSeq < k)
    (hx : ∀ msg k q, x = .enqueued msg (.book k) q → ∀ m ∈ tobsIn log, m < k) :
    (log ++ [x]).Pairwise fun a b => ∀ tob msg k q, a = .wrote (.tob tob) →
      b = .enqueued msg (.book k) q → tob.mdSeq < k := by
  refine List.pairwise_append.mpr ⟨h, List.pairwise_singleton _ _, ?_⟩
  intro a ha b hb tob msg k q hwrote hqueued
  rw [List.mem_singleton.mp hb] at hqueued
  rw [hwrote] at ha
  exact hx msg k q hqueued tob.mdSeq (mem_tobsIn ha)

/-- An entry that is neither a frame nor a tick nor a report changes nothing here. -/
theorem quiet {x : Entry} (h : l.Ticking) (hepoch : l'.epoch = l.epoch)
    (htob : ∀ tob, l'.outbox.tob = some tob → l.outbox.tob = some tob)
    (hlog : l'.log = l.log ++ [x]) (hframe : ∀ frame, x ≠ .wrote frame)
    (htick : ∀ k, x ≠ .ticked k) (hreport : ∀ msg cause q, x ≠ .enqueued msg cause q) :
    l'.Ticking := by
  have hframes : framesIn l'.log = framesIn l.log := by
    rw [hlog, framesIn_append]
    cases x with
    | wrote frame => exact absurd rfl (hframe frame)
    | _ => simp [framesIn]
  have htobs : tobsIn l'.log = tobsIn l.log := by rw [tobsIn, hframes, tobsIn]
  have hticks : ticksIn l'.log = ticksIn l.log := by
    rw [hlog, ticksIn_append]
    cases x with
    | ticked k => exact absurd rfl (htick k)
    | _ => simp [ticksIn]
  refine ⟨?_, ?_, ?_, ?_, ?_⟩
  · rw [htobs]
    exact h.sorted
  · rw [htobs, hticks]
    exact h.known
  · rw [htobs, hticks]
    exact fun tob hpending => h.pending tob (htob tob hpending)
  · rw [hlog, hepoch]
    exact before_concat h.before fun tob hx => absurd hx (hframe _)
  · rw [hlog]
    exact after_concat h.after fun msg k q hx => absurd hx (hreport _ _ _)

/-- A report is written. -/
theorem writeReport {frame : OutMsg} (h : l.Ticking) (hframe : frame.isTob = false)
    (hepoch : l'.epoch = l.epoch) (htob : l'.outbox.tob = l.outbox.tob)
    (hlog : l'.log = l.log ++ [.wrote frame]) : l'.Ticking := by
  have htobs : tobsIn l'.log = tobsIn l.log := by
    rw [hlog, tobsIn_append]
    cases frame with
    | tob m => cases hframe
    | _ => simp [tobsIn, framesIn]
  have hticks : ticksIn l'.log = ticksIn l.log := by
    rw [hlog, ticksIn_append]
    simp [ticksIn]
  refine ⟨?_, ?_, ?_, ?_, ?_⟩
  · rw [htobs]
    exact h.sorted
  · rw [htobs, hticks]
    exact h.known
  · rw [htobs, hticks, htob]
    exact h.pending
  · rw [hlog, hepoch]
    refine before_concat h.before fun tob hx => ?_
    cases hx
    cases hframe
  · rw [hlog]
    exact after_concat h.after fun msg k q hx => by cases hx

/-- The pending tick is written, when no report is queued. -/
theorem writeTick {tob : Tob} {done : List (OutMsg × Cause)} (h : l.Ticking)
    (hstream : l.Streams done []) (hpending : l.outbox.tob = some tob) {seq epoch : ℕ}
    (hepoch : l'.epoch = l.epoch) (htob : l'.outbox.tob = none)
    (hlog : l'.log = l.log ++ [.wrote (.tob { tob with seq, epoch })]) : l'.Ticking := by
  obtain ⟨hmem, hnewer⟩ := h.pending tob hpending
  have htobs : tobsIn l'.log = tobsIn l.log ++ [tob.mdSeq] := by
    rw [hlog, tobsIn_append]
    rfl
  have hticks : ticksIn l'.log = ticksIn l.log := by
    rw [hlog, ticksIn_append]
    simp [ticksIn]
  refine ⟨?_, ?_, ?_, ?_, ?_⟩
  · rw [htobs]
    refine List.pairwise_append.mpr ⟨h.sorted, List.pairwise_singleton _ _, fun k hk m hm => ?_⟩
    rw [List.mem_singleton.mp hm]
    exact hnewer k hk
  · rw [htobs, hticks]
    intro k hk
    rcases List.mem_append.mp hk with hold | hnew
    · exact h.known k hold
    · rw [List.mem_singleton.mp hnew]
      exact hmem
  · rw [htob]
    exact fun _ hnone => by cases hnone
  · rw [hlog, hepoch]
    refine before_concat h.before fun _ _ => ?_
    rw [hstream.enqueued, List.append_nil]
    exact hstream.carried
  · rw [hlog]
    exact after_concat h.after fun msg k q hx => by cases hx

theorem push {msg : OutMsg} {cause : Cause} (hmay : MayPush cfg codec v msg cause)
    (h : v.line.Ticking) : (v.push msg cause).line.Ticking := by
  have hout := Outbox.pushReport_of_not_isTob (o := v.line.outbox) hmay.isReport
  have htobs : tobsIn (v.push msg cause).line.log = tobsIn v.line.log := by
    simp [View.push, tobsIn, framesIn]
  have hticks : ticksIn (v.push msg cause).line.log = ticksIn v.line.log := by
    simp [View.push, ticksIn]
  refine ⟨?_, ?_, ?_, ?_, ?_⟩
  · rw [htobs]
    exact h.sorted
  · rw [htobs, hticks]
    exact h.known
  · rw [htobs, hticks]
    simp only [View.push, hout]
    exact h.pending
  · exact before_concat h.before fun tob hx => by cases hx
  · -- a fill comes before the tick of its book enters the outbox
    refine after_concat h.after fun msg' k q hx m hm => ?_
    cases hx
    exact hmay.early k rfl m (h.known m hm)

theorem tick {tob : Tob} (hnewer : ∀ k ∈ ticksIn v.line.log, k < tob.mdSeq) (h : v.line.Ticking) :
    (v.tick tob).line.Ticking := by
  have htobs : tobsIn (v.tick tob).line.log = tobsIn v.line.log := by
    simp [View.tick, tobsIn, framesIn]
  have hticks : ticksIn (v.tick tob).line.log = ticksIn v.line.log ++ [tob.mdSeq] := by
    simp [View.tick, ticksIn]
  refine ⟨?_, ?_, ?_, ?_, ?_⟩
  · rw [htobs]
    exact h.sorted
  · rw [htobs, hticks]
    exact fun k hk => List.mem_append_left _ (h.known k hk)
  · rw [htobs, hticks]
    intro pending hpending
    cases hpending
    exact ⟨List.mem_append_right _ List.mem_cons_self, fun k hk => hnewer k (h.known k hk)⟩
  · exact before_concat h.before fun tob hx => by cases hx
  · exact after_concat h.after fun msg k q hx => by cases hx

theorem drain (hd : Drain cfg codec v v') (htotal : codec.Total)
    (hstream : ∃ done queued, v.line.Streams done queued) (h : v.line.Ticking) :
    v'.line.Ticking := by
  obtain ⟨done, queued, hstream⟩ := hstream
  cases hd with
  | latch code _ _ =>
    rw [View.line_latch]
    exact h.quiet rfl (fun _ htob => htob) rfl (by simp) (by simp) (by simp)
  | @write msg outbox hpop _ _ _ _ =>
    rcases Outbox.pop_cases hpop with ⟨rest, hreports, rfl⟩ | ⟨tob, hempty, htob, rfl, rfl⟩
    · rw [← hstream.reports] at hreports
      obtain ⟨p, queued, rfl, rfl, rfl⟩ := List.map_eq_cons_iff.mp hreports
      refine h.writeReport ?_ rfl rfl rfl
      rw [hstream.writeReport.1, isTob_frameOf]
      exact hstream.isReport p List.mem_cons_self
    · have hqueued : queued = [] := List.map_eq_nil_iff.mp (hstream.reports.trans hempty)
      subst hqueued
      exact h.writeTick hstream htob rfl rfl rfl
  | lose _ hfailed => exact absurd hfailed (htotal _)
  | discard hpop _ =>
    refine h.quiet rfl (fun tob htob => ?_) rfl (by simp) (by simp) (by simp)
    rcases Outbox.pop_cases hpop with ⟨rest, -, rfl⟩ | ⟨_, -, -, -, rfl⟩
    · exact htob
    · cases htob
  | sendClose _ _ _ => exact h.quiet rfl (fun _ htob => htob) rfl (by simp) (by simp) (by simp)

end Line.Ticking

/-! ## Closes -/

/-- What is written around a close. -/
structure Line.Closes (l : Line) : Prop where
  latched : ∀ code, .latched code ∈ l.log → l.closing = true ∧ l.closeCode = code
  drains : l.closing = true → l.drainThenClose = l.closeCode.drains
  sent : .closeFrame ∈ l.log → l.closeFrameSent = true ∧ l.closing = true
  /-- A close that drains sends its frame when nothing is queued, and nothing is queued after. -/
  drained : l.closeFrameSent = true → l.drainThenClose = true → l.outbox.reports = []
  noTob : l.log.Pairwise fun a b => ∀ code frame, a = .latched code → b = .wrote frame →
    frame.isTob = false
  last : l.log.Pairwise fun a b => a = .closeFrame →
    (∀ frame, b ≠ .wrote frame) ∧ ∀ msg cause q, b ≠ .enqueued msg cause q

namespace Line.Closes

variable {cfg : ServerConfig} {codec : Codec} {l l' : Line} {v v' : View}

theorem fresh (cfg : ServerConfig) (epoch : ℕ) : ({ Line.fresh cfg with epoch } : Line).Closes where
  latched code hmem := by cases hmem
  drains hc := by cases hc
  sent hmem := by cases hmem
  drained hsent := by cases hsent
  noTob := List.Pairwise.nil
  last := List.Pairwise.nil

/-- An entry that is neither a frame nor a report keeps both orders. -/
private theorem quiet_concat {x : Entry} (h : l.Closes) (hframe : ∀ frame, x ≠ .wrote frame)
    (hreport : ∀ msg cause q, x ≠ .enqueued msg cause q) :
    ((l.log ++ [x]).Pairwise fun a b => ∀ code frame, a = .latched code → b = .wrote frame →
        frame.isTob = false) ∧
      (l.log ++ [x]).Pairwise fun a b => a = .closeFrame →
        (∀ frame, b ≠ .wrote frame) ∧ ∀ msg cause q, b ≠ .enqueued msg cause q := by
  constructor
  · refine List.pairwise_append.mpr ⟨h.noTob, List.pairwise_singleton _ _, ?_⟩
    intro a _ b hb code frame _ hwrote
    rw [List.mem_singleton.mp hb] at hwrote
    exact absurd hwrote (hframe frame)
  · refine List.pairwise_append.mpr ⟨h.last, List.pairwise_singleton _ _, ?_⟩
    intro a _ b hb _
    rw [List.mem_singleton.mp hb]
    exact ⟨hframe, hreport⟩

/-- An entry that has nothing to do with closing changes nothing here. -/
theorem quiet {x : Entry} (h : l.Closes) (hclosing : l'.closing = l.closing)
    (hcode : l'.closeCode = l.closeCode) (hdrain : l'.drainThenClose = l.drainThenClose)
    (hsent : l'.closeFrameSent = l.closeFrameSent)
    (hreports : l.outbox.reports = [] → l'.outbox.reports = []) (hlog : l'.log = l.log ++ [x])
    (hframe : ∀ frame, x ≠ .wrote frame) (hreport : ∀ msg cause q, x ≠ .enqueued msg cause q)
    (hlatched : ∀ code, x ≠ .latched code) (hclose : x ≠ .closeFrame) : l'.Closes := by
  obtain ⟨hnoTob, hlast⟩ := h.quiet_concat hframe hreport
  refine ⟨?_, ?_, ?_, ?_, hlog ▸ hnoTob, hlog ▸ hlast⟩
  · intro code hmem
    rw [hlog] at hmem
    rcases List.mem_append.mp hmem with hold | hnew
    · rw [hclosing, hcode]
      exact h.latched code hold
    · exact absurd (List.mem_singleton.mp hnew).symm (hlatched code)
  · rw [hclosing, hcode, hdrain]
    exact h.drains
  · intro hmem
    rw [hlog] at hmem
    rcases List.mem_append.mp hmem with hold | hnew
    · rw [hsent, hclosing]
      exact h.sent hold
    · exact absurd (List.mem_singleton.mp hnew).symm hclose
  · rw [hsent, hdrain]
    exact fun hs hd => hreports (h.drained hs hd)

theorem latch (h : v.line.Closes) (hfits : v.line.Fits cfg) (hc : v.line.closing = false)
    (code : CloseCode) : (v.latch cfg code).line.Closes := by
  have hunsent : v.line.closeFrameSent = false := by
    by_contra hsent
    have hclosing := hfits.sent (by simpa using hsent)
    rw [hc] at hclosing
    cases hclosing
  obtain ⟨hnoTob, hlast⟩ := h.quiet_concat (x := .latched code) (by simp) (by simp)
  rw [View.line_latch]
  refine ⟨?_, fun _ => rfl, ?_, ?_, hnoTob, hlast⟩
  · intro code' hmem
    rcases List.mem_append.mp hmem with hold | hnew
    · -- there was no close before
      rw [(h.latched code' hold).1] at hc
      cases hc
    · cases List.mem_singleton.mp hnew
      exact ⟨rfl, rfl⟩
  · intro hmem
    rcases List.mem_append.mp hmem with hold | hnew
    · rw [(h.sent hold).1] at hunsent
      cases hunsent
    · cases List.mem_singleton.mp hnew
  · intro hsent
    rw [hunsent] at hsent
    cases hsent

theorem write {msg frame : OutMsg} {outbox : Outbox} (h : v.line.Closes)
    (hframe : frame.isTob = msg.isTob) (hsent : v.line.closeFrameSent = false)
    (htick : v.line.closing = true → msg.isTob = false) :
    ((v.stamp msg outbox).write frame).line.Closes := by
  refine ⟨?_, h.drains, ?_, ?_, ?_, ?_⟩
  · intro code hmem
    rcases List.mem_append.mp hmem with hold | hnew
    · exact h.latched code hold
    · cases List.mem_singleton.mp hnew
  · intro hmem
    rcases List.mem_append.mp hmem with hold | hnew
    · exact h.sent hold
    · cases List.mem_singleton.mp hnew
  · intro hs
    rw [show ((v.stamp msg outbox).write frame).line.closeFrameSent = false from hsent] at hs
    cases hs
  · -- a close that was latched before keeps ticks out
    refine List.pairwise_append.mpr ⟨h.noTob, List.pairwise_singleton _ _, ?_⟩
    intro a ha b hb code frame' hlatched hwrote
    rw [List.mem_singleton.mp hb] at hwrote
    cases hwrote
    rw [hframe]
    exact htick (h.latched code (hlatched ▸ ha)).1
  · refine List.pairwise_append.mpr ⟨h.last, List.pairwise_singleton _ _, ?_⟩
    intro a ha b _ hclose
    rw [(h.sent (hclose ▸ ha)).1] at hsent
    cases hsent

theorem sendClose (h : v.line.Closes) (hc : v.line.closing = true)
    (hdrained : v.line.drainThenClose = true → v.line.outbox.reports = []) :
    v.sendClose.line.Closes := by
  obtain ⟨hnoTob, hlast⟩ := h.quiet_concat (x := .closeFrame) (by simp) (by simp)
  refine ⟨?_, h.drains, fun _ => ⟨rfl, hc⟩, fun _ => hdrained, hnoTob, hlast⟩
  intro code hmem
  rcases List.mem_append.mp hmem with hold | hnew
  · exact h.latched code hold
  · cases List.mem_singleton.mp hnew

theorem push {msg : OutMsg} {cause : Cause} (hmay : MayPush cfg codec v msg cause)
    (htotal : codec.Total) (h : v.line.Closes) : (v.push msg cause).line.Closes := by
  have hsent := hmay.notSent htotal
  refine ⟨?_, h.drains, ?_, ?_, ?_, ?_⟩
  · intro code hmem
    rcases List.mem_append.mp hmem with hold | hnew
    · exact h.latched code hold
    · cases List.mem_singleton.mp hnew
  · intro hmem
    rcases List.mem_append.mp hmem with hold | hnew
    · exact h.sent hold
    · cases List.mem_singleton.mp hnew
  · intro hs
    rw [show (v.push msg cause).line.closeFrameSent = false from hsent] at hs
    cases hs
  · refine List.pairwise_append.mpr ⟨h.noTob, List.pairwise_singleton _ _, ?_⟩
    intro a _ b hb code frame _ hwrote
    rw [List.mem_singleton.mp hb] at hwrote
    cases hwrote
  · refine List.pairwise_append.mpr ⟨h.last, List.pairwise_singleton _ _, ?_⟩
    intro a ha b _ hclose
    rw [(h.sent (hclose ▸ ha)).1] at hsent
    cases hsent

end Line.Closes

/-- The three invariants together. -/
structure Line.Ordered (cfg : ServerConfig) (l : Line) : Prop where
  fits : l.Fits cfg
  streams : ∃ done queued, l.Streams done queued
  ticking : l.Ticking
  closes : l.Closes

namespace Line.Ordered

variable {cfg : ServerConfig} {codec : Codec} {v v' : View}

theorem fresh (cfg : ServerConfig) (epoch : ℕ) :
    ({ Line.fresh cfg with epoch } : Line).Ordered cfg where
  fits := (sound_fresh cfg epoch).toFits
  streams := ⟨[], [], Line.Streams.fresh cfg epoch⟩
  ticking := Line.Ticking.fresh cfg epoch
  closes := Line.Closes.fresh cfg epoch

theorem drain (hd : Drain cfg codec v v') (htotal : codec.Total) (h : v.line.Ordered cfg) :
    v'.line.Ordered cfg := by
  refine ⟨fits_drain hd h.fits, Line.Streams.drain hd htotal h.streams,
    h.ticking.drain hd htotal h.streams, ?_⟩
  obtain ⟨done, queued, hstream⟩ := h.streams
  cases hd with
  | latch code hc _ => exact h.closes.latch h.fits hc code
  | @write msg outbox hpop _ hsent htick _ =>
    refine h.closes.write ?_ hsent htick
    rcases Outbox.pop_cases hpop with ⟨rest, hreports, rfl⟩ | ⟨tob, -, -, rfl, rfl⟩
    · rw [← hstream.reports] at hreports
      obtain ⟨p, queued, rfl, rfl, rfl⟩ := List.map_eq_cons_iff.mp hreports
      rw [hstream.writeReport.1, isTob_frameOf]
    · rfl
  | lose _ hfailed => exact absurd hfailed (htotal _)
  | discard hpop _ =>
    refine h.closes.quiet rfl rfl rfl rfl (fun hempty => ?_) rfl (by simp) (by simp) (by simp)
      (by simp)
    exact List.suffix_nil.mp (hempty ▸ (keeps_of_pop hpop).2.2)
  | sendClose hc _ hdrained => exact h.closes.sendClose hc (hdrained htotal)

theorem drains (hd : Drains cfg codec v v') (htotal : codec.Total) (h : v.line.Ordered cfg) :
    v'.line.Ordered cfg := by
  induction hd with
  | refl => exact h
  | tail _ hlast ih => exact ih.drain hlast htotal

theorem act (ha : Act cfg codec v v') (htotal : codec.Total) (hsound : v.line.Sound cfg)
    (h : v.line.Ordered cfg) : v'.line.Ordered cfg := by
  have hfits := (sound_act ha hsound).toFits
  obtain ⟨done, queued, hstream⟩ := h.streams
  cases ha with
  | drain hd => exact h.drain hd htotal
  | @enqueue _ msg cause hmay hchecked _ =>
    have hpush : (v.push msg cause).line.Ordered cfg :=
      ⟨fits_push hmay h.fits, ⟨done, _, hstream.push hmay⟩, h.ticking.push hmay,
        h.closes.push hmay htotal⟩
    exact hpush.drains hchecked htotal
  | serve _ _ _ => exact h
  | @tick tob _ _ _ hnewer =>
    refine ⟨hfits, ⟨done, queued, hstream.congr rfl rfl rfl rfl ?_ ?_⟩, h.ticking.tick hnewer,
      h.closes.quiet rfl rfl rfl rfl id rfl (by simp) (by simp) (by simp) (by simp)⟩
    · simp [View.tick, enqueuedIn]
    · simp [View.tick, framesIn]
  | written =>
    have ht := h.ticking
    have hc := h.closes
    exact ⟨hfits, ⟨done, queued, hstream.congr rfl rfl rfl rfl rfl rfl⟩,
      ⟨ht.sorted, ht.known, ht.pending, ht.before, ht.after⟩,
      ⟨hc.latched, hc.drains, hc.sent, hc.drained, hc.noTob, hc.last⟩⟩
  | tearDown code _ =>
    rw [View.line_tearDown] at hfits ⊢
    refine ⟨hfits, ⟨done, queued, hstream.congr rfl rfl rfl rfl ?_ ?_⟩,
      h.ticking.quiet rfl (fun _ htob => htob) rfl (by simp) (by simp) (by simp),
      h.closes.quiet rfl rfl rfl rfl id rfl (by simp) (by simp) (by simp) (by simp)⟩
    · simp [enqueuedIn]
    · simp [framesIn]

end Line.Ordered

end MarketMaker
