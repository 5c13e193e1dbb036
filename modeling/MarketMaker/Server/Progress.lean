import MarketMaker.Server.Turns

/-!
# No lost wakeup

A session that is up always has an operation pending that will continue it. `Session.Wakes` is the
writing half: with a frame to write, or a close to send, a write is in flight, or the close frame
has gone out. `pump` establishes it from any state, which is why every path that queues or latches
ends in `pump`. `Session.Armed` adds the receiving half.
-/

namespace MarketMaker

namespace Session

variable {cfg : ServerConfig} {codec : Codec} {t : Turn}

/-! ## Writing -/

/-- Nothing waits for a write that is not in flight. -/
structure Wakes (x : Session) : Prop where
  queued : x.tornDown = false → 0 < x.outbox.depth → x.closeFrameSent = false →
    x.writeInflight = true
  unsent : x.tornDown = false → x.closing = true → x.writeInflight = true ∨ x.closeFrameSent = true

/-- A session that is down waits for nothing. -/
theorem wakes_of_tornDown {x : Session} (h : x.tornDown = true) : Wakes x := by
  refine ⟨fun hup => ?_, fun hup => ?_⟩ <;>
  · rw [h] at hup
    cases hup

/-- A write in flight will continue it. -/
theorem wakes_of_writing {x : Session} (h : x.writeInflight = true) : Wakes x :=
  ⟨fun _ _ _ => h, fun _ _ => Or.inl h⟩

/-- After the close frame nothing is written. -/
theorem wakes_of_sent {x : Session} (h : x.closeFrameSent = true) : Wakes x := by
  refine ⟨fun _ _ hsent => ?_, fun _ _ => Or.inr h⟩
  rw [h] at hsent
  cases hsent

/-- The invariant reads the outbox and four flags. -/
theorem Wakes.congr {x x' : Session} (h : Wakes x) (houtbox : x'.outbox = x.outbox)
    (hwrite : x'.writeInflight = x.writeInflight) (hsent : x'.closeFrameSent = x.closeFrameSent)
    (hclosing : x'.closing = x.closing) (htorn : x'.tornDown = x.tornDown) : Wakes x' := by
  refine ⟨?_, ?_⟩
  · rw [houtbox, hwrite, hsent, htorn]
    exact h.queued
  · rw [hwrite, hsent, hclosing, htorn]
    exact h.unsent

/-- With no write in flight the close frame goes out. -/
theorem sent_sendCloseFrame (hidle : t.self.writeInflight = false)
    (hup : t.self.tornDown = false) : (sendCloseFrame t).self.closeFrameSent = true := by
  unfold sendCloseFrame
  split_ifs with h
  · -- it was sent before
    simpa [hidle, hup] using h
  · rfl

/-- Latching starts no write and sends no frame. -/
theorem flags_latchClose (cfg : ServerConfig) (code : CloseCode) (drain : Bool) (t : Turn) :
    (latchClose cfg code drain t).1.self.writeInflight = t.self.writeInflight ∧
      (latchClose cfg code drain t).1.self.tornDown = t.self.tornDown := by
  refine ⟨?_, (quiet_latchClose cfg code drain t).tornDown⟩
  unfold latchClose retireEpoch
  split_ifs <;> rfl

/-- A message is written, or the close frame goes out in its place. -/
theorem wakes_writeMsg (msg : OutMsg) (hidle : t.self.writeInflight = false)
    (hup : t.self.tornDown = false) : Wakes (writeMsg cfg codec t msg).self := by
  unfold writeMsg
  dsimp only
  split_ifs
  · -- nothing is written, but the close frame goes out
    apply wakes_of_sent
    obtain ⟨hwrite, htorn⟩ := flags_latchClose cfg .internalError false
      { t with
        self :=
          { t.self with
            outSeq := t.self.outSeq + 1
            pendingSvc := (stampMsg t.self.outSeq t.self.epoch t.self.pendingSvc msg).2 } }
    exact sent_sendCloseFrame (hwrite.trans hidle) (htorn.trans hup)
  · exact wakes_of_writing rfl

/-- The loop ends with a write in flight, the close frame sent, or an empty outbox and no close. -/
theorem wakes_pumpLoop (fuel : ℕ) (t : Turn) (hfuel : t.self.outbox.depth < fuel)
    (hidle : t.self.writeInflight = false) (hup : t.self.tornDown = false) :
    Wakes (pumpLoop cfg codec fuel t).self := by
  induction fuel generalizing t with
  | zero => omega
  | succ fuel ih =>
    unfold pumpLoop
    split
    · next hpop =>
      obtain ⟨hreports, htob⟩ := Outbox.pop_eq_none_iff.mp hpop
      split_ifs with hc
      · exact wakes_of_sent (sent_sendCloseFrame hidle hup)
      · refine ⟨fun _ hdepth => ?_, fun _ hclosing => absurd hclosing hc⟩
        simp [Outbox.depth, hreports, htob] at hdepth
    · next tob outbox hpop =>
      split_ifs
      · -- a discarded tick leaves less to write
        have hdepth := Outbox.depth_pop hpop
        refine ih _ ?_ hidle hup
        show outbox.depth < fuel
        omega
      · exact wakes_writeMsg _ hidle hup
    · exact wakes_writeMsg _ hidle hup

/-- Whatever the state, after `pump` nothing is left waiting. -/
theorem wakes_pump (cfg : ServerConfig) (codec : Codec) (t : Turn) :
    Wakes (pump cfg codec t).self := by
  unfold pump
  split_ifs with hbusy
  · simp only [Bool.or_eq_true] at hbusy
    rcases hbusy with (hwrite | hdown) | hsent
    · exact wakes_of_writing hwrite
    · exact wakes_of_tornDown hdown
    · exact wakes_of_sent hsent
  all_goals
    simp only [Bool.or_eq_true, not_or, Bool.not_eq_true] at hbusy
    obtain ⟨⟨hidle, hup⟩, -⟩ := hbusy
  · exact wakes_of_sent (sent_sendCloseFrame hidle hup)
  · exact wakes_pumpLoop _ t (Nat.lt_succ_self _) hidle hup

/-- A close that is latched is pumped, and one that is refused changes nothing. -/
theorem wakes_beginClose (code : CloseCode) (h : Wakes t.self) :
    Wakes (beginClose cfg codec code t).self := by
  unfold beginClose
  dsimp only
  split_ifs with hlatched
  · exact wakes_pump cfg codec _
  · -- a refused latch changed nothing
    by_cases hrefused : (t.self.closing || t.self.tornDown) = true
    · rwa [latchClose_of_refused hrefused]
    · rw [latchClose, if_neg hrefused] at hlatched
      exact absurd rfl hlatched

/-- Every path of a frame ends in `pump`. -/
theorem wakes_onMessage (cfg : ServerConfig) (codec : Codec) (frame : Bytes) (t : Turn) :
    Wakes (onMessage cfg codec frame t).self := by
  unfold onMessage
  split_ifs
  · exact wakes_pump cfg codec _
  · split <;> exact wakes_pump cfg codec _

/-! ## Receiving -/

/-- The pending operations of a session. -/
structure Armed (x : Session) : Prop extends Wakes x where
  receiving : x.epoch ≠ 0 → x.tornDown = false → x.reading ≠ .idle
  closeInflight : x.closeInflight = true → x.closing = true
  oversize : x.reading = .closing ∨ x.reading = .drain → x.closing = true

/-- A session that has not started has nothing to wait for. -/
theorem armed_create (cfg : ServerConfig) : Armed (create cfg) where
  queued _ hdepth := by simp [create, Outbox.depth] at hdepth
  unsent _ hc := by cases hc
  receiving h0 := absurd rfl h0
  closeInflight h := by cases h
  oversize h := by simp [create] at h

/-- After a teardown the session is down. -/
theorem tornDown_teardown (cfg : ServerConfig) (code : ℕ) (t : Turn) :
    (teardown cfg code t).self.tornDown = true := by
  have h : (teardown cfg code t).view.line.tornDown = true := by
    cases hup : t.self.tornDown with
    | true =>
      rw [teardown, if_pos hup]
      exact hup
    | false => rw [view_teardown hup, View.line_tearDown]
  exact h

/-- A teardown leaves the pending operations to complete. -/
theorem pending_teardown (cfg : ServerConfig) (code : ℕ) (t : Turn) :
    (teardown cfg code t).self.reading = t.self.reading ∧
      (teardown cfg code t).self.closeInflight = t.self.closeInflight ∧
      (teardown cfg code t).self.closing = t.self.closing := by
  unfold teardown retireEpoch
  dsimp only
  split_ifs <;> exact ⟨rfl, rfl, rfl⟩

/-- So nothing has to be pending any more. -/
theorem armed_teardown (code : ℕ) (hinflight : t.self.closeInflight = true → t.self.closing = true)
    (hoversize : t.self.reading = .closing ∨ t.self.reading = .drain → t.self.closing = true) :
    Armed (teardown cfg code t).self := by
  have hdown := tornDown_teardown cfg code t
  obtain ⟨hreading, hclose, hclosing⟩ := pending_teardown cfg code t
  refine ⟨wakes_of_tornDown hdown, fun _ hup => ?_, ?_, ?_⟩
  · rw [hdown] at hup
    cases hup
  · rw [hclose, hclosing]
    exact hinflight
  · rw [hreading, hclosing]
    exact hoversize

/-- Quiet code keeps what is pending. -/
theorem Armed.quiet {t t' : Turn} (h : Armed t.self) (hquiet : Quiet t t')
    (hwakes : Wakes t'.self) :
    Armed t'.self := by
  refine ⟨hwakes, ?_, hquiet.closeInflight h.closeInflight, fun hreading => hquiet.closing ?_⟩
  · rw [hquiet.epoch, hquiet.tornDown, hquiet.reading]
    exact h.receiving
  · rw [hquiet.reading] at hreading
    exact h.oversize hreading

/-- A report, a tick or a close of the server leaves the operations pending. -/
theorem armed_poked {x x' : Session} (h : Armed x) (hpoked : Poked cfg codec x x') : Armed x' := by
  cases hpoked with
  | goingAway srv =>
    exact Armed.quiet (t := ⟨srv, x⟩) h (quiet_beginClose cfg codec _ _)
      (wakes_beginClose .goingAway h.toWakes)
  | report srv msg mdSeq =>
    refine Armed.quiet (t := ⟨srv, x⟩) h (quiet_deliverReport cfg codec msg mdSeq _) ?_
    unfold deliverReport
    split_ifs
    · exact h.toWakes
    · exact wakes_pump cfg codec _
  | tick srv tob =>
    refine Armed.quiet (t := ⟨srv, x⟩) h (quiet_deliverTob cfg codec tob _) ?_
    unfold deliverTob
    split_ifs
    · exact h.toWakes
    · exact wakes_pump cfg codec _

/-- A read that did not tear the session down has armed the next one. -/
theorem Armed.readNext (hinflight : t.self.closeInflight = true → t.self.closing = true)
    (hwakes : Wakes t.self) : Armed (readNext t).self where
  toWakes := hwakes.congr rfl rfl rfl rfl rfl
  receiving _ _ := by rintro ⟨⟩
  closeInflight := hinflight
  oversize h := by simp [Session.readNext] at h

/-- What an arrived frame does before the next read. -/
def heard (cfg : ServerConfig) (codec : Codec) (frame : Option Bytes) (t : Turn) : Turn :=
  let t := { t with srv := t.srv.steadyNs.2 }
  if t.self.closing then t
  else
    match frame with
    | none => beginClose cfg codec .protocolError t
    | some frame => onMessage cfg codec frame t

/-- `on_frame` ends in `read_next`, on each of its paths. -/
theorem onFrame_eq (cfg : ServerConfig) (codec : Codec) (frame : Option Bytes) (t : Turn) :
    onFrame cfg codec frame t = readNext (heard cfg codec frame t) := by
  unfold onFrame heard
  dsimp only
  split_ifs
  · rfl
  · cases frame <;> rfl

/-- A command starts no receive operation. -/
theorem reading_onCommand (cfg : ServerConfig) (codec : Codec) (msg : InMsg) (e1Ns : ℤ)
    (t : Turn) : (onCommand cfg codec msg e1Ns t).self.reading = t.self.reading := by
  unfold onCommand
  dsimp only
  split_ifs
  · exact (quiet_beginClose cfg codec .protocolError t).reading
  · exact (quiet_pushReject cfg codec _ _ _).reading
  · cases msg with
    | newOrder order =>
      obtain ⟨served, -, hself, -, hquiet⟩ := calm_serveNew cfg codec order e1Ns
        { t with self := { t.self with inSeqExpected := t.self.inSeqExpected + 1 } }
      exact hquiet.reading.trans (by rw [hself])
    | cancelOrder cancel =>
      obtain ⟨served, -, hself, -, hquiet⟩ := calm_serveCancel cfg codec cancel e1Ns
        { t with self := { t.self with inSeqExpected := t.self.inSeqExpected + 1 } }
      exact hquiet.reading.trans (by rw [hself])

/-- Neither does a frame. -/
theorem reading_onMessage (cfg : ServerConfig) (codec : Codec) (frame : Bytes) (t : Turn) :
    (onMessage cfg codec frame t).self.reading = t.self.reading := by
  unfold onMessage
  split_ifs
  · exact ((quiet_pushReject cfg codec _ _ t).trans (quiet_pump cfg codec _)).reading
  · split
    · exact ((quiet_pushReject cfg codec _ _ t).trans (quiet_pump cfg codec _)).reading
    · exact (quiet_pump cfg codec _).reading.trans (reading_onCommand cfg codec _ _ _)

/-- Whatever arrived, no receive operation is started before `read_next`. -/
theorem reading_heard (cfg : ServerConfig) (codec : Codec) (frame : Option Bytes) (t : Turn) :
    (heard cfg codec frame t).self.reading = t.self.reading := by
  unfold heard
  dsimp only
  split_ifs
  · rfl
  · cases frame with
    | none => exact (quiet_beginClose cfg codec _ _).reading
    | some frame => exact reading_onMessage cfg codec frame _

/-- A frame is heard and the next read is armed. -/
theorem armed_onFrame (frame : Option Bytes) (h : Wakes t.self)
    (hinflight : t.self.closeInflight = true → t.self.closing = true) :
    Armed (onFrame cfg codec frame t).self := by
  let arrived : Turn := { t with srv := t.srv.steadyNs.2 }
  have harrived : Wakes arrived.self := h
  rw [onFrame_eq]
  unfold heard
  dsimp only
  split_ifs
  · exact Armed.readNext (t := arrived) hinflight harrived
  · cases frame with
    | none =>
      exact Armed.readNext ((quiet_beginClose cfg codec _ arrived).closeInflight hinflight)
        (wakes_beginClose .protocolError harrived)
    | some frame =>
      exact Armed.readNext ((mild_onMessage cfg codec frame arrived).closeInflight hinflight)
        (wakes_onMessage cfg codec frame arrived)

/-- An oversize frame arms the close of the stream, or tears the session down. -/
theorem armed_onMessageTooBig (hidle : t.self.reading = .idle)
    (hinflight : t.self.closeInflight = true → t.self.closing = true) :
    Armed (onMessageTooBig cfg t).self := by
  have hlatch := quiet_latchClose cfg .tooBig false t
  have hnotOversize : ¬(t.self.reading = .closing ∨ t.self.reading = .drain) := by simp [hidle]
  unfold onMessageTooBig
  dsimp only
  split_ifs with hlatched
  · have hclosing : (latchClose cfg .tooBig false t).1.self.closing = true := by
      refine closing_latchClose rfl ?_
      -- a torn down session would have refused the latch
      by_contra hdown
      rw [latchClose, if_pos (by simp [hdown])] at hlatched
      cases hlatched
    exact ⟨wakes_of_sent rfl, fun _ _ => by rintro ⟨⟩, fun _ => hclosing, fun _ => hclosing⟩
  · refine armed_teardown _ (hlatch.closeInflight hinflight) fun hoversize => ?_
    rw [hlatch.reading] at hoversize
    exact absurd hoversize hnotOversize

/-- The completion of a read arms the next operation, or tears the session down. -/
theorem armed_onRead (result : ReadResult) (h : Armed t.self) :
    Armed (onRead cfg codec result t).self := by
  let idle : Turn := { t with self := { t.self with reading := .idle } }
  have hwakes : Wakes idle.self := h.toWakes.congr rfl rfl rfl rfl rfl
  have hnotOversize : idle.self.reading = .closing ∨ idle.self.reading = .drain →
      idle.self.closing = true := fun hreading => by simp [idle] at hreading
  have hdown : ∀ code, Armed (teardown cfg code idle).self := fun code =>
    armed_teardown code h.closeInflight hnotOversize
  unfold onRead
  dsimp only
  split_ifs with hup
  · refine ⟨hwakes, fun _ hup' => ?_, h.closeInflight, hnotOversize⟩
    rw [hup] at hup'
    cases hup'
  · cases result with
    | closed peer => exact hdown _
    | timeout => exact hdown _
    | aborted => exact hdown _
    | messageTooBig => exact armed_onMessageTooBig (t := idle) rfl h.closeInflight
    | protocolViolation badPayload => exact hdown _
    | failed => exact hdown _
    | binary => exact armed_onFrame (t := idle) none hwakes h.closeInflight
    | text frame => exact armed_onFrame (t := idle) (some frame) hwakes h.closeInflight

/-- `reading` holds one operation, so a second one started over a pending one would not show. None
is: the completion of a read clears `reading`, and what runs until the next operation is started
leaves it clear. The next one is the read, or the close that follows an oversize frame. -/
theorem onRead_resumes (cfg : ServerConfig) (codec : Codec) (result : ReadResult) (t : Turn)
    (hup : t.self.tornDown = false) :
    let idle : Turn := { t with self := { t.self with reading := .idle } }
    (∃ frame, onRead cfg codec result t = readNext (heard cfg codec frame idle) ∧
        (heard cfg codec frame idle).self.reading = .idle) ∨
      (∃ latched : Turn, latched = (latchClose cfg .tooBig false idle).1 ∧
        latched.self.reading = .idle ∧
        onRead cfg codec result t =
          { latched with
            self :=
              { latched.self with
                closeFrameSent := true
                reading := .closing
                log := latched.self.log ++ [.closeFrame] } }) ∨
      ∃ code, onRead cfg codec result t = teardown cfg code idle := by
  intro idle
  have hframe : ∀ frame, onRead cfg codec result t = onFrame cfg codec frame idle →
      ∃ frame, onRead cfg codec result t = readNext (heard cfg codec frame idle) ∧
        (heard cfg codec frame idle).self.reading = .idle := fun frame heq =>
    ⟨frame, heq.trans (onFrame_eq cfg codec frame idle), reading_heard cfg codec frame idle⟩
  have hdown : ¬idle.self.tornDown = true := by simp [idle, hup]
  cases result with
  | closed peer => exact Or.inr (Or.inr ⟨_, if_neg hdown⟩)
  | timeout => exact Or.inr (Or.inr ⟨_, if_neg hdown⟩)
  | aborted => exact Or.inr (Or.inr ⟨_, if_neg hdown⟩)
  | protocolViolation badPayload => exact Or.inr (Or.inr ⟨_, if_neg hdown⟩)
  | failed => exact Or.inr (Or.inr ⟨_, if_neg hdown⟩)
  | binary => exact Or.inl (hframe none (if_neg hdown))
  | text frame => exact Or.inl (hframe (some frame) (if_neg hdown))
  | messageTooBig =>
    have heq : onRead cfg codec .messageTooBig t = onMessageTooBig cfg idle := if_neg hdown
    have hreading := (quiet_latchClose cfg .tooBig false idle).reading
    rw [heq]
    unfold onMessageTooBig
    dsimp only
    split_ifs with hlatched
    · exact Or.inr (Or.inl ⟨_, rfl, hreading, rfl⟩)
    · -- a refused latch leaves the session as it was
      have hrefused : (idle.self.closing || idle.self.tornDown) = true := by
        by_contra hopen
        rw [latchClose, if_neg hopen] at hlatched
        exact hlatched rfl
      rw [latchClose_of_refused hrefused]
      exact Or.inr (Or.inr ⟨_, rfl⟩)

/-- The completion of a write pumps the next frame, or tears the session down. -/
theorem armed_onWrite (result : WriteResult) (h : Armed t.self) :
    Armed (onWrite cfg codec result t).self := by
  let written : Turn := { t with self := { t.self with writeInflight := false } }
  have hdown : ∀ code, Armed (teardown cfg code (noteSendLag written)).self := fun code =>
    armed_teardown (t := noteSendLag written) code h.closeInflight h.oversize
  unfold onWrite
  dsimp only
  split_ifs with hup
  · exact ⟨wakes_of_tornDown hup, h.receiving, h.closeInflight, h.oversize⟩
  · cases result with
    | ok =>
      have hquiet := quiet_pump cfg codec (noteSendLag written)
      refine ⟨wakes_pump cfg codec _, ?_, hquiet.closeInflight h.closeInflight, fun hreading => ?_⟩
      · rw [hquiet.epoch, hquiet.tornDown, hquiet.reading]
        exact h.receiving
      · rw [hquiet.reading] at hreading
        exact hquiet.closing (h.oversize hreading)
    | timeout => exact hdown _
    | aborted => exact hdown _
    | failed => exact hdown _

/-- The completion of the close leaves the read pending, or tears the session down. -/
theorem armed_onCloseFrame (ok : Bool) (h : Armed t.self) :
    Armed (onCloseFrame cfg ok t).self := by
  unfold onCloseFrame
  dsimp only
  split_ifs
  · exact ⟨h.toWakes.congr rfl rfl rfl rfl rfl, h.receiving, (by simp), h.oversize⟩
  · exact armed_teardown (t := { t with self := { t.self with closeInflight := false } }) _
      (by simp)
      h.oversize

/-- The close of an oversize frame arms the drain. -/
theorem armed_drainTransport (hc : t.self.closing = true) (h : Armed t.self) :
    Armed (drainTransport t).self := by
  unfold drainTransport
  split_ifs with hdown
  · refine ⟨wakes_of_tornDown hdown, fun _ hup => ?_, h.closeInflight, fun _ => hc⟩
    rw [hdown] at hup
    cases hup
  · exact ⟨h.toWakes.congr rfl rfl rfl rfl rfl,
      fun _ _ => by rintro ⟨⟩, h.closeInflight, fun _ => hc⟩

/-- The drain goes on, or its end tears the session down. -/
theorem armed_onDrainRead (ok : Bool) (h : Armed t.self) : Armed (onDrainRead cfg ok t).self := by
  unfold onDrainRead
  split_ifs
  · exact h
  · exact armed_teardown (t := { t with self := { t.self with reading := .idle } }) _
      h.closeInflight fun hreading => by simp at hreading

end Session

namespace World

variable {cfg : ServerConfig} {codec : Codec} {w : World}

/-! ## Runs -/

/-- Whatever an event does to a session, something is pending after it. -/
theorem armed_touched {event : Event} {i : ℕ} {x x' : Session} (h : x.Armed)
    (htouched : Touched cfg codec w event i x x') : x'.Armed := by
  cases htouched with
  | completed hcompletes =>
    cases hcompletes with
    | read result _ => exact Session.armed_onRead (t := ⟨w.srv, x⟩) result h
    | write result _ => exact Session.armed_onWrite (t := ⟨w.srv, x⟩) result h
    | closeFrame ok _ => exact Session.armed_onCloseFrame (t := ⟨w.srv, x⟩) ok h
    | oversizeClose hpending =>
      exact Session.armed_drainTransport (t := ⟨w.srv, x⟩) (h.oversize (Or.inl hpending)) h
    | drainRead ok _ => exact Session.armed_onDrainRead (t := ⟨w.srv, x⟩) ok h
  | started _ =>
    exact Session.Armed.readNext
      (t := ⟨w.srv, { Session.create cfg with epoch := w.srv.nextEpoch + 1 }⟩) (by rintro ⟨⟩)
      ((Session.armed_create cfg).toWakes.congr rfl rfl rfl rfl rfl)
  | poked hpoked =>
    induction hpoked with
    | refl => exact h
    | tail _ hlast ih => exact Session.armed_poked ih hlast

/-- In every state between turns the sessions that are up are armed. -/
theorem run_armed (cfg : ServerConfig) (codec : Codec) (clock : ℕ → ℤ) (events : List Event) :
    ∀ x ∈ (run cfg codec clock events).heap, x.Armed :=
  run_forall_session (Session.armed_create cfg)
    (fun _ _ _ _ _ _ _ h htouched => armed_touched h htouched) clock events

end World

end MarketMaker
